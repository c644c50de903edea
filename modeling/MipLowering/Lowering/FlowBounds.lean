import MipLowering.Expr.Node
/-!
# Occurrence bounds of a flow constraint

A flow constraint links variables to the values of their domains. Every value of some domain
gets occurrence bounds: `[0, 1]` for AllDifferent and `[0, n]` for `n` variables under Gcc. The
Gcc demands `(value, lb, ub)` then tighten the bounds of their values, in order: the lower bound
rises to `lb`, the upper falls to `ub`. A demand with a positive `lb` on a value that no domain
holds is *unreachable* and kept with its `lb`.

## Main definitions

* `MipLowering.FlowBounds`, `MipLowering.FlowBounds.build`, `MipLowering.FlowBounds.capacity`.
-/

namespace MipLowering

/-- The value range of the domains, occurrence bounds by value (sorted by value), and the
unreachable demands in order. -/
structure FlowBounds where
  minVal : Int
  maxVal : Int
  capacities : List (Int × Int × Int)
  unreachable : List (Int × Int)

namespace FlowBounds

/-- Tightens the bounds of value `v` by a demand, if `v` has bounds. -/
def tighten (v lb ub : Int) : List (Int × Int × Int) → List (Int × Int × Int)
  | [] => []
  | (w, lo, hi) :: rest =>
    if w = v then (w, max lo lb, min hi ub) :: rest else (w, lo, hi) :: tighten v lb ub rest

/-- Applies one demand. -/
def demand (b : FlowBounds) (d : Int × Int × Int) : FlowBounds :=
  let (v, lb, ub) := d
  if b.capacities.any (·.1 == v) then { b with capacities := tighten v lb ub b.capacities }
  else if lb > 0 then { b with unreachable := b.unreachable ++ [(v, lb)] }
  else b

/-- The bounds of a flow constraint over variables with the given domains. The demand lists
are read together and cut to the shortest. -/
def build (kind : FlowKind) (domains : List (List Int)) (values lb ub : List Int) : FlowBounds :=
  let defaultUb : Int := match kind with
    | .allDifferent => 1
    | .gcc => domains.length
  let vals := (domains.flatten.mergeSort (· ≤ ·)).eraseReps
  let start : FlowBounds :=
    ⟨vals.head?.getD 0, vals.getLast?.getD (-1), vals.map fun v => (v, 0, defaultUb), []⟩
  (values.zip (lb.zip ub)).foldl demand start

/-- The occurrence bounds of a value; `[0, 0]` for a value no domain holds. -/
def capacity (b : FlowBounds) (v : Int) : Int × Int :=
  match b.capacities.find? (·.1 == v) with
  | some (_, lo, hi) => (lo, hi)
  | none => (0, 0)

end FlowBounds

end MipLowering
