import MipLowering.Flat.Model
import MipLowering.Search.Config
import MipLowering.Search.Solution
/-!
# Depth-first enumeration

A complete search for small integer models. Every column gets a finite list of candidate values:
a fixed continuous column its one value, an integer column the integers within its bounds (or its
listed values within them). Columns are assigned one per level, the decision columns first; a row
is checked at the level of its last column, rows without terms before the descent. A search
*plan* holds the levels; it does not exist when a continuous column is not fixed or the
rounded-in bounds of an integer column without a value list lie `2^16` or more apart (so `2^16`
values are enumerated, one more are not). Rows are filed by level in a table with
one slot per column; a decision that names no column, or a row whose level a repeated decision
pushes beyond the number of columns, makes planning fail.

A *walk* is the state of the descent: the current values, the best assignment, the assignments
collected, the counters and the failures of the current run. A walk is interrupted when a
first solution is found, when the failure limit is reached, or when the run's failures reach
the cutoff of a restart policy. Restarted runs repeat the same descent, keeping the walk's
values, best assignment and counters.

## Main definitions

* `MipLowering.Search.Level`, `MipLowering.Search.Plan`, `MipLowering.Search.Plan.ofModel`,
  built from `MipLowering.Search.placeTable`, `MipLowering.Search.rowsWithLevel` and
  `MipLowering.Search.Plan.levelsOf`.
* `MipLowering.Search.Walk`, `MipLowering.Search.tryValue`, `MipLowering.Search.descend`,
  `MipLowering.Search.Plan.run`.
* `MipLowering.FlatModel.solve` — satisfaction or optimisation, with restarts.
* `MipLowering.FlatModel.allSolutions` — every assignment that satisfies the rows.
-/

namespace MipLowering

namespace Search

/-- Tolerance of the row checks. -/
def tolerance {α : Type} [Scalar α] : α := 1e-9

/-- Integer columns without a value list are enumerated when their rounded-in bounds lie less
than this apart. -/
def maxSpan : Int := 65536

/-- What the search is for. -/
inductive Goal
  | first
  | all
  | optimise (sense : Sense) (column : Nat)

/-- Why a run ended. -/
inductive Outcome
  | completed
  | stopped
  | restart
  deriving Repr, DecidableEq

/-- One level of the descent: the column assigned, its candidate values in order, and the rows
whose last column it is. -/
structure Level (α : Type) where
  column : Nat
  candidates : List α
  rows : List Nat

/-- The levels of a search and the rows without terms. -/
structure Plan (α : Type) where
  levels : List (Level α)
  constantRows : List Nat

variable {α : Type} [Scalar α]

/-- The candidate values of a column, if it can be enumerated: the one value of a fixed
continuous column, else the integers between the rounded-in bounds, or the listed values between
them. -/
def candidates (c : Column α) : Option (List α) :=
  if !c.isIntegral then
    if c.lower != c.upper then none else some [c.lower]
  else
    let lo := Scalar.ceil c.lower
    let hi := Scalar.floor c.upper
    match c.values with
    | some vs => some ((vs.map Scalar.ofInt).filter fun v => decide (lo ≤ v) && decide (v ≤ hi))
    | none =>
      if !Scalar.isFinite (hi - lo) || decide (Scalar.ofInt maxSpan ≤ hi - lo) then none
      else
        let a := Scalar.toInt64 lo
        let b := Scalar.toInt64 hi
        some ((List.range (b + 1 - a).toNat).map fun k => Scalar.ofInt (a + Int.ofNat k))

/-- The branching order: decision columns as given, then the other columns by position. Under
`MinDomain` both parts are stably sorted by the number of candidates. -/
def branchOrder (m : FlatModel α) (cfg : SearchConfig) (sizes : Array Nat) : List Nat :=
  let rest := (List.range m.columns.size).filter fun v => !m.decisions.contains v
  if cfg.byMinDomain then
    let key (v : Nat) : Nat := sizes.getD v 0
    m.decisions.mergeSort (fun a b => key a ≤ key b) ++ rest.mergeSort (fun a b => key a ≤ key b)
  else m.decisions ++ rest

/-- Hands each column's candidates to its first level in the order; a column that comes again
gets none, its values being taken already. -/
def assignCandidates (doms : Array (Option (List α))) : List Nat → List Nat → List (Nat × List α)
  | [], _ => []
  | v :: vs, taken =>
    let d := if taken.contains v then [] else (doms.getD v none).getD []
    (v, d) :: assignCandidates doms vs (v :: taken)

/-- The level of a row so far, after one more of its terms: the larger of the two places.
Fails on a column beyond the `n` slots of the table. -/
def levelStep (n : Nat) (place : Array Nat) (acc : Option Nat) (t : Nat × α) :
    Except OutOfRange (Option Nat) :=
  if n ≤ t.1 then throw ⟨n, t.1⟩
  else
    let p := place.getD t.1 0
    pure (some (match acc with | some q => Nat.max q p | none => p))

/-- The level of a row: the last place in the branching order of its columns, `none` for a row
without terms. Fails when a column or the level itself lies beyond the `n` slots of the table. -/
def rowLevel (n : Nat) (place : Array Nat) (r : Row α) : Except OutOfRange (Option Nat) := do
  let level ← r.terms.foldlM (levelStep n place) none
  match level with
  | some p => if n ≤ p then throw ⟨n, p⟩ else pure (some p)
  | none => pure none

/-- The place of each column in the order, in a table of `n` slots: a column that comes again
keeps its last place, one that does not come has place `0`. -/
def placeTable (n : Nat) (order : List Nat) : Array Nat :=
  (order.zip (List.range order.length)).foldl (fun a p => a.setIfInBounds p.1 p.2)
    (Array.replicate n 0)

/-- The rows whose level is `k`, in order, given the level of each row; `none` gives the rows
without terms. -/
def rowsWithLevel (levelsOfRows : List (Option Nat)) (k : Option Nat) : List Nat :=
  ((List.range levelsOfRows.length).zip levelsOfRows).filterMap fun p =>
    if p.2 == k then some p.1 else none

/-- The levels of a plan: the columns in the order, each with its candidates (from the largest
when `largestFirst`) and the rows whose level is its place. -/
def Plan.levelsOf (doms : Array (Option (List α))) (order : List Nat)
    (levelsOfRows : List (Option Nat)) (largestFirst : Bool) : List (Level α) :=
  let assigned := assignCandidates doms order []
  (assigned.zip (List.range assigned.length)).map fun p =>
    ⟨p.1.1, if largestFirst then p.1.2.reverse else p.1.2, rowsWithLevel levelsOfRows (some p.2)⟩

/-- The search plan of a model; `none` when some column cannot be enumerated. Rows are filed by
level in a table with one slot per column, so planning fails when a decision names no column or
a row's level lies beyond the number of columns (a decision list with repeats is longer than
the columns). -/
def Plan.ofModel (m : FlatModel α) (cfg : SearchConfig) : Except OutOfRange (Option (Plan α)) := do
  let doms := m.columns.map candidates
  if doms.any Option.isNone then return none
  let n := m.columns.size
  if let some v := m.decisions.find? (n ≤ ·) then throw ⟨n, v⟩
  let order := branchOrder m cfg (doms.map fun d => (d.getD []).length)
  let levelsOfRows ← m.rows.toList.mapM (rowLevel n (placeTable n order))
  return some ⟨Plan.levelsOf doms order levelsOfRows cfg.largestFirst,
    rowsWithLevel levelsOfRows none⟩

/-- The state of a descent. -/
structure Walk (α : Type) where
  values : Array α
  best : Option (Array α) := none
  found : Array (Array α) := #[]
  stats : Stats := {}
  runFailures : Nat := 0

/-- The limits of a run: the failure limit of the search (`0` for none) and the run's cutoff. -/
structure Budget where
  failureLimit : Nat
  cutoff : Option Nat

/-- The interruption due before trying the next value, if any. -/
def Budget.exhausted {β : Type} (b : Budget) (w : Walk β) : Option Outcome :=
  if b.failureLimit > 0 && w.stats.failures ≥ b.failureLimit then some .stopped
  else match b.cutoff with
    | some c => if w.runFailures ≥ c then some .restart else none
    | none => none

/-- Checks the rows in order until one fails, counting each check. -/
def checkRows (rows : Array (Row α)) (w : Walk α) : List Nat → Bool × Walk α
  | [] => (true, w)
  | i :: is =>
    let w := { w with stats.checks := w.stats.checks + 1 }
    let ok := (rows[i]?.map fun r => r.isSatisfied w.values tolerance).getD true
    if ok then checkRows rows w is else (false, w)

/-- A complete assignment has been reached: collect it, stop at it, or keep it if it improves
the objective. -/
def record (goal : Goal) (w : Walk α) : Walk α × Option Outcome :=
  match goal with
  | .all => ({ w with found := w.found.push w.values }, none)
  | .first => ({ w with best := some w.values }, some .completed)
  | .optimise sense col =>
    let value := w.values.getD col Scalar.zero
    let improves := match w.best with
      | none => true
      | some b =>
        match sense with
        | .minimise => decide (value < b.getD col Scalar.zero)
        | .maximise => decide (b.getD col Scalar.zero < value)
    (if improves then { w with best := some w.values } else w, none)

/-- Tries one candidate of a level unless the descent is interrupted: the budget is consulted,
the value is set and counted as a node, the level's rows are checked; a failed check counts a
failure, a passed one goes on with `next`, the descent through the levels below. -/
def tryValue (rows : Array (Row α)) (budget : Budget) (lv : Level α)
    (next : Walk α → Walk α × Option Outcome) :
    Walk α × Option Outcome → α → Walk α × Option Outcome
  | (w, some o), _ => (w, some o)
  | (w, none), x =>
    match budget.exhausted w with
    | some o => (w, some o)
    | none =>
      let w := { w with values := w.values.setIfInBounds lv.column x,
                        stats.nodes := w.stats.nodes + 1 }
      let (ok, w) := checkRows rows w lv.rows
      if ok then next w
      else
        ({ w with stats.failures := w.stats.failures + 1,
                  runFailures := w.runFailures + 1 }, none)

/-- Depth-first descent through the levels. At each level the candidates are tried in order
(`tryValue`). An interruption ends the level at once; a level whose candidates are all tried
counts a backtrack. -/
def descend (rows : Array (Row α)) (goal : Goal) (budget : Budget) :
    List (Level α) → Walk α → Walk α × Option Outcome
  | [], w => record goal w
  | lv :: rest, w =>
    match lv.candidates.foldl (tryValue rows budget lv (descend rows goal budget rest)) (w, none) with
    | (w, some o) => (w, some o)
    | (w, none) => ({ w with stats.backtracks := w.stats.backtracks + 1 }, none)

/-- One run: the rows without terms are checked, then the descent, unless one of them fails. -/
def Plan.run (p : Plan α) (rows : Array (Row α)) (goal : Goal) (budget : Budget) (w : Walk α) :
    Walk α × Outcome :=
  let w := { w with runFailures := 0 }
  let (ok, w) := checkRows rows w p.constantRows
  if ok then
    let (w, o) := descend rows goal budget p.levels w
    (w, o.getD .completed)
  else (w, .completed)

/-- Runs numbered from `run` until one completes or is stopped, at most `fuel` of them. A
restarted run is followed by the next; out of fuel counts as stopped. -/
def Plan.runUntilDone (p : Plan α) (rows : Array (Row α)) (goal : Goal) (cfg : SearchConfig) :
    Nat → Nat → Walk α → Walk α × Bool
  | 0, _, w => (w, false)
  | fuel + 1, run, w =>
    let budget : Budget := ⟨cfg.failureLimit, cfg.restart.map fun r => r.cutoff run⟩
    match p.run rows goal budget w with
    | (w, .completed) => (w, true)
    | (w, .stopped) => (w, false)
    | (w, .restart) => p.runUntilDone rows goal cfg fuel (run + 1) w

/-- Runs are counted by a 32-bit word: at most `2^32` of them. -/
def maxRuns : Nat := 4294967296

end Search

namespace FlatModel

open Search

variable {α : Type} [Scalar α]

/-- The empty walk of a model: every value `0`. -/
def startWalk (m : FlatModel α) : Walk α := { values := Array.replicate m.columns.size Scalar.zero }

/-- Searches for a satisfying assignment, or for a best one when the model has an objective.
`sat` with the best assignment found, else `unsat` when the search completed and `unknown` when
it was stopped or the model cannot be enumerated. Fails as planning does, and when an assignment
is recorded for an objective column that the model does not have. -/
def solve (m : FlatModel α) (cfg : SearchConfig) : Except OutOfRange (Solution α) := do
  let goal := match m.objective with
    | some o => Goal.optimise o.sense o.column
    | none => Goal.first
  match ← Plan.ofModel m cfg with
  | none => pure { status := .unknown }
  | some p =>
    let (w, completed) := p.runUntilDone m.rows goal cfg maxRuns 0 m.startWalk
    match w.best with
    | some values =>
      -- recording an assignment reads its objective column
      if let some o := m.objective then
        if m.columns.size ≤ o.column then throw ⟨m.columns.size, o.column⟩
      pure { status := .sat, values, objectiveValue := m.objectiveValue values, stats := w.stats }
    | none => pure { status := if completed then .unsat else .unknown, stats := w.stats }

/-- Every assignment satisfying the rows, in the order of the descent, ignoring the objective
and restarts; the failure limit still applies. Empty when the model cannot be enumerated;
fails as planning does. -/
def allSolutions (m : FlatModel α) (cfg : SearchConfig) : Except OutOfRange (List (Array α)) := do
  match ← Plan.ofModel m cfg with
  | none => pure []
  | some p =>
    let budget : Budget := ⟨cfg.failureLimit, none⟩
    pure (p.run m.rows .all budget m.startWalk).1.found.toList

end FlatModel

end MipLowering
