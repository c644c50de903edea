import Mathlib.Algebra.Order.Field.Rat
import MipLowering.Proofs.Search.Restarts
import MipLowering.Proofs.Search.ExactSolutions

/-!
# What a search answers

The search of a model looks for a first solution, or, with an objective, for a best one; its
answer is read off the best assignment it kept and whether its last run completed. This module
ties that answer to the solutions the same search lists (`FlatModel.allSolutions`).

* The complete assignments a descent meets are the ones it reaches (`Search.leaves_events`), so
  a search without limits and restarts keeps the first solution listed, or, optimising, the fold
  of `Goal.keep` over the solutions listed.
* Replacing the kept assignment only by a strictly better one keeps the first solution that no
  solution improves on (`Search.FirstBest`), once the objective values are ordered: under the
  laws of `Scalar.LawfulOrder`, which exact values and doubles both have, the order is total off
  NaN and the values a search enumerates are never NaN.
* Whatever the limits and restarts: a failure is counted only after the budget check found the
  limit not reached, so the failures stay within a positive failure limit; the assignment kept
  is always one of the solutions; and a run that completes without keeping one met no solution,
  so `unsat` is reported only for a model without solutions.

## Main definitions

* `MipLowering.Scalar.LawfulOrder` — the laws of a scalar's order an optimising search rests on.
* `MipLowering.Search.FirstBest` — the first member of a list that no member improves on.
* `MipLowering.Solution.Answers` — what a solution says about the solutions of a model.

## Main results

* `MipLowering.Search.foldl_keep_firstBest` — strict improvement keeps the first best member.
* `MipLowering.Search.Plan.runUntilDone_failures_le` — runs keep the failures within the limit.
* `MipLowering.Search.Plan.runUntilDone_keeps` — runs keep an invariant every run keeps, and a
  completed loop ends with a completed run.
* `MipLowering.FlatModel.solve_sound_and_optimal` — the answer of a search, with and without
  limits and restarts.
-/

namespace MipLowering

namespace Scalar

/-- The laws of a scalar's order that the answer of an optimising search rests on, as doubles
have them: `<` is a strict order, total off NaN (a value that is not NaN lies above or below
anything strictly between two values), and the values a search enumerates, integers and a bound
equal to the other bound, are not NaN. -/
class LawfulOrder (α : Type) [Scalar α] : Prop where
  lt_irrefl : ∀ a : α, ¬a < a
  lt_trans : ∀ a b c : α, a < b → b < c → a < c
  lt_or_lt : ∀ a b c : α, isNaN b = false → a < c → a < b ∨ b < c
  isNaN_ofInt : ∀ z : Int, isNaN (ofInt z : α) = false
  isNaN_of_beq : ∀ a b : α, (a == b) = true → isNaN a = false

end Scalar

namespace ERat

/-- Off NaN the order is total. -/
theorem lt_or_lt_of_lt {a b c : ERat} (hb : Scalar.isNaN b = false) (hac : a < c) :
    a < b ∨ b < c := by
  change blt a c = true at hac
  change blt a b = true ∨ blt b c = true
  cases b with
  | nan => exact absurd hb (by decide)
  | fin q =>
    cases a <;> cases c <;> simp_all [blt]
    -- two rationals and one between them
    exact (lt_or_ge _ q).imp id fun hq => lt_of_le_of_lt hq hac
  | negInf => cases a <;> cases c <;> simp_all [blt]
  | posInf => cases a <;> cases c <;> simp_all [blt]

instance : Scalar.LawfulOrder ERat where
  lt_irrefl := lt_irrefl
  lt_trans := lt_trans
  lt_or_lt _ _ _ hb hac := lt_or_lt_of_lt hb hac
  isNaN_ofInt _ := rfl
  isNaN_of_beq a b h := by
    cases a with
    | nan => cases b <;> cases h
    | _ => rfl

end ERat

namespace Search

/-! ### The complete assignments a descent meets -/

section Leaves

variable {α : Type}

theorem leaves_flatMap {β : Type} (f : β → List (Event α)) :
    ∀ L : List β, leaves (L.flatMap f) = L.flatMap fun x => leaves (f x)
  | [] => rfl
  | x :: L => by rw [List.flatMap_cons, List.flatMap_cons, leaves_append, leaves_flatMap f L]

variable [Scalar α]

/-- The complete assignments among the events of a descent are the assignments it reaches. -/
theorem leaves_events (rows : Array (Row α)) :
    ∀ (lvls : List (Level α)) (V : Array α), leaves (events rows lvls V) = reached rows lvls V
  | [], _ => rfl
  | lv :: rest, V => by
    rw [events, reached, leaves_flatMap]
    refine List.flatMap_congr fun x _ => ?_
    cases rowsHold rows lv.rows (V.setIfInBounds lv.column x) with
    | true => exact leaves_events rows rest _
    | false => rfl

/-- Looking for a first solution, a replay without cutoff keeps the first assignment met. -/
theorem play_first_best (E : List (Event α)) (w : Walk α) :
    (play .first unbounded E w).1.best = (leaves E).head?.or w.best := by
  induction E generalizing w with
  | nil => rfl
  | cons e E ih =>
    cases e with
    | check => rw [play_check_of_none (exhausted_unbounded w)]; exact ih w
    | fail => exact ih _
    | leaf v => rw [play_leaf, record_first]; rfl

end Leaves

/-! ### The first best member -/

section FirstBest

variable {α : Type} [Scalar α]

/-- `v` is the first member of `L` that no member improves on in column `col`: no member has a
strictly better value there, and every member before it has a strictly worse one. -/
def FirstBest (sense : Sense) (col : Nat) (L : List (Array α)) (v : Array α) : Prop :=
  ∃ pre post, L = pre ++ v :: post ∧
    (∀ u ∈ L, improves sense (u.getD col Scalar.zero) (v.getD col Scalar.zero) = false) ∧
    ∀ u ∈ pre, improves sense (v.getD col Scalar.zero) (u.getD col Scalar.zero) = true

variable [Scalar.LawfulOrder α]

/-- Off NaN the order is total: what improves on `b` improves on every value that does not. -/
theorem improves_of_not_improves {sense : Sense} {y b u : α} (hu : Scalar.isNaN u = false)
    (hyb : improves sense y b = true) (hub : improves sense u b = false) :
    improves sense y u = true := by
  cases sense with
  | minimise =>
    simp only [improves, decide_eq_true_eq, decide_eq_false_iff_not] at *
    exact (Scalar.LawfulOrder.lt_or_lt y u b hu hyb).resolve_right hub
  | maximise =>
    simp only [improves, decide_eq_true_eq, decide_eq_false_iff_not] at *
    exact (Scalar.LawfulOrder.lt_or_lt b u y hu hyb).resolve_left hub

/-- Replacing the kept assignment only by a strictly better one keeps the first member that no
member improves on, when no objective value is NaN. -/
theorem foldl_keep_firstBest (sense : Sense) (col : Nat) (L : List (Array α)) :
    L ≠ [] → (∀ u ∈ L, Scalar.isNaN (u.getD col Scalar.zero) = false) →
      ∃ v, L.foldl (Goal.optimise sense col).keep none = some v ∧ FirstBest sense col L v := by
  induction L using List.reverseRecOn with
  | nil => exact fun h => absurd rfl h
  | append_singleton L y ih =>
    intro _ hnan
    have hirr := improves_irrefl Scalar.LawfulOrder.lt_irrefl sense (y.getD col Scalar.zero)
    rw [List.foldl_append, List.foldl_cons, List.foldl_nil]
    by_cases hL : L = []
    · -- a single member is its own first best
      subst hL
      refine ⟨y, keep_optimise_none sense col y, [], [], rfl, ?_,
        fun _ h => absurd h List.not_mem_nil⟩
      simpa using hirr
    obtain ⟨v, hv, pre, post, hsplit, hmin, hpre⟩ :=
      ih hL fun u hu => hnan u (List.mem_append_left _ hu)
    rw [hv, keep_optimise_some]
    by_cases hyv : improves sense (y.getD col Scalar.zero) (v.getD col Scalar.zero) = true
    · -- `y` improves on `v`, hence on every earlier member, and nothing improves on it
      rw [if_pos hyv]
      refine ⟨y, rfl, L, [], rfl, ?_, fun u hu =>
        improves_of_not_improves (hnan u (List.mem_append_left _ hu)) hyv (hmin u hu)⟩
      intro u hu
      rcases List.mem_append.1 hu with hu | hu
      · by_contra hne
        rw [Bool.not_eq_false] at hne
        have hu' := hmin u hu
        rw [improves_trans Scalar.LawfulOrder.lt_trans sense hne hyv] at hu'
        cases hu'
      · rw [List.mem_singleton.1 hu]
        exact hirr
    · rw [if_neg hyv]
      refine ⟨v, rfl, pre, post ++ [y], by rw [hsplit]; simp, ?_, hpre⟩
      intro u hu
      rcases List.mem_append.1 hu with hu | hu
      · exact hmin u hu
      · rw [List.mem_singleton.1 hu]
        exact Bool.eq_false_iff.2 hyv

end FirstBest

/-! ### Failures stay within the limit -/

section Failures

variable {α : Type} [Scalar α] {rows : Array (Row α)} {budget : Budget}

/-- A budget that lets a run go on has not reached a positive failure limit. -/
theorem failures_lt_of_exhausted {β : Type} {w : Walk β} (hL : 0 < budget.failureLimit)
    (h : budget.exhausted w = none) : w.stats.failures < budget.failureLimit := by
  simp only [Budget.exhausted] at h
  split at h
  · cases h
  · next hno =>
    simp only [gt_iff_lt, ge_iff_le, Bool.and_eq_true, decide_eq_true_eq, not_and] at hno
    exact Nat.lt_of_not_le (hno hL)

theorem record_stats (goal : Goal) (w : Walk α) : (record goal w).1.stats = w.stats := by
  cases goal with
  | optimise sense col => simp only [record]; split_ifs <;> rfl
  | _ => rfl

/-- A candidate tried counts a failure only after the budget check found the limit not reached. -/
theorem tryValue_failures_le (hL : 0 < budget.failureLimit) (lv : Level α)
    {next : Walk α → Walk α × Option Outcome}
    (hnext : ∀ w, w.stats.failures ≤ budget.failureLimit →
      (next w).1.stats.failures ≤ budget.failureLimit)
    (r : Walk α × Option Outcome) (x : α) (hr : r.1.stats.failures ≤ budget.failureLimit) :
    (tryValue rows budget lv next r x).1.stats.failures ≤ budget.failureLimit := by
  obtain ⟨w, o⟩ := r
  cases o with
  | some o => exact hr
  | none =>
    cases hex : budget.exhausted w with
    | some o => simp only [tryValue, hex]; exact hr
    | none =>
      have hlt := failures_lt_of_exhausted hL hex
      let w₁ : Walk α := { w with values := w.values.setIfInBounds lv.column x,
                                  stats.nodes := w.stats.nodes + 1 }
      obtain ⟨c, hc⟩ := checkRows_eq rows w₁ lv.rows
      simp only [tryValue, hex]
      rw [hc]
      split
      · exact hnext _ hr
      · exact hlt

/-- A descent keeps the failures within a positive failure limit. -/
theorem descend_failures_le (hL : 0 < budget.failureLimit) (goal : Goal) :
    ∀ (lvls : List (Level α)) (w : Walk α), w.stats.failures ≤ budget.failureLimit →
      (descend rows goal budget lvls w).1.stats.failures ≤ budget.failureLimit
  | [], w, hw => by
    show (record goal w).1.stats.failures ≤ _
    rw [record_stats]
    exact hw
  | lv :: rest, w, hw => by
    -- the trials of the level, one candidate after another
    have hfold : ∀ (cs : List α) (r : Walk α × Option Outcome),
        r.1.stats.failures ≤ budget.failureLimit →
        (cs.foldl (tryValue rows budget lv (descend rows goal budget rest)) r).1.stats.failures ≤
          budget.failureLimit := by
      intro cs
      induction cs with
      | nil => exact fun _ h => h
      | cons x cs ih =>
        exact fun r h => ih _ (tryValue_failures_le hL lv (descend_failures_le hL goal rest) r x h)
    have h := hfold lv.candidates (w, none) hw
    simp only [descend]
    cases hr : lv.candidates.foldl (tryValue rows budget lv (descend rows goal budget rest))
        (w, none) with
    | mk w' o =>
      rw [hr] at h
      cases o <;> exact h

/-- A run keeps the failures within a positive failure limit. -/
theorem Plan.run_failures_le (hL : 0 < budget.failureLimit) (p : Plan α) (goal : Goal)
    (w : Walk α) (hw : w.stats.failures ≤ budget.failureLimit) :
    (p.run rows goal budget w).1.stats.failures ≤ budget.failureLimit := by
  obtain ⟨c, hc⟩ := checkRows_eq rows { w with runFailures := 0 } p.constantRows
  simp only [Plan.run]
  rw [hc]
  split
  · exact descend_failures_le hL goal p.levels _ hw
  · exact hw

end Failures

/-! ### Runs until one completes -/

section Loop

variable {α : Type} [Scalar α] {rows : Array (Row α)} {p : Plan α} {goal : Goal}

theorem Plan.runUntilDone_of_stopped {cfg : SearchConfig} {fuel run : Nat} {w : Walk α}
    (h : (p.run rows goal (runBudget cfg run) w).2 = .stopped) :
    p.runUntilDone rows goal cfg (fuel + 1) run w =
      ((p.run rows goal (runBudget cfg run) w).1, false) := by
  simp only [Plan.runUntilDone]
  revert h
  cases p.run rows goal (runBudget cfg run) w with
  | mk w₁ o => rintro rfl; rfl

/-- A property of walks that every run keeps holds after the runs; and when they end with a
completed run, that run started from a walk with the property and gave the last walk. -/
theorem Plan.runUntilDone_keeps (cfg : SearchConfig) (P : Walk α → Prop)
    (hrun : ∀ run w, P w → P (p.run rows goal (runBudget cfg run) w).1) :
    ∀ (fuel run : Nat) (w : Walk α), P w →
      P (p.runUntilDone rows goal cfg fuel run w).1 ∧
      ((p.runUntilDone rows goal cfg fuel run w).2 = true → ∃ run' w', P w' ∧
        (p.run rows goal (runBudget cfg run') w').2 = .completed ∧
        (p.runUntilDone rows goal cfg fuel run w).1 = (p.run rows goal (runBudget cfg run') w').1)
  | 0, _, _, hw => ⟨hw, fun h => by cases h⟩
  | fuel + 1, run, w, hw => by
    cases ho : (p.run rows goal (runBudget cfg run) w).2 with
    | completed =>
      rw [Plan.runUntilDone_of_completed ho]
      exact ⟨hrun run w hw, fun _ => ⟨run, w, hw, ho, rfl⟩⟩
    | stopped =>
      rw [Plan.runUntilDone_of_stopped ho]
      exact ⟨hrun run w hw, fun h => by cases h⟩
    | restart =>
      rw [Plan.runUntilDone_of_restart ho]
      exact Plan.runUntilDone_keeps cfg P hrun fuel (run + 1) _ (hrun run w hw)

end Loop

/-! ### The assignment kept -/

section Kept

variable {α : Type} [Scalar α]

/-- Recording keeps the assignment kept before or the one recorded. -/
theorem keep_eq_or (goal : Goal) (b : Option (Array α)) (v : Array α) :
    goal.keep b v = b ∨ goal.keep b v = some v := by
  cases goal with
  | all => exact Or.inl rfl
  | first => exact Or.inr rfl
  | optimise sense col =>
    cases b with
    | none => exact Or.inr rfl
    | some b =>
      rw [keep_optimise_some]
      split_ifs
      · exact Or.inr rfl
      · exact Or.inl rfl

/-- Once an assignment is kept, recording keeps one. -/
theorem record_best_isSome (goal : Goal) {w : Walk α} (h : w.best.isSome) :
    ((record goal w).1.best).isSome := by
  rw [record_best]
  rcases keep_eq_or goal w.best w.values with h' | h' <;> rw [h']
  · exact h
  · rfl

/-- A replay keeps as its best assignment the one it started with or one it met. -/
theorem play_best_mem (goal : Goal) (budget : Budget) {S : List (Array α)}
    (E : List (Event α)) :
    ∀ (w : Walk α), (∀ v ∈ leaves E, v ∈ S) → (∀ v, w.best = some v → v ∈ S) →
      ∀ v, (play goal budget E w).1.best = some v → v ∈ S := by
  induction E with
  | nil => exact fun _ _ hw => hw
  | cons e E ih =>
    intro w hE hw
    cases e with
    | check =>
      rw [play_check]
      cases budget.exhausted w with
      | some o => exact hw
      | none => exact ih w hE hw
    | fail => exact ih _ hE hw
    | leaf v =>
      -- the walk after recording `v` keeps `v` or what it kept
      have hkept : ∀ u, (record goal { w with values := v }).1.best = some u → u ∈ S := by
        intro u hu
        rw [record_best] at hu
        rcases keep_eq_or goal w.best v with h | h <;> rw [h] at hu
        · exact hw u hu
        · cases hu
          exact hE v List.mem_cons_self
      rw [play_leaf]
      cases hr : record goal { w with values := v } with
      | mk w' o =>
        rw [hr] at hkept
        cases o with
        | some o => exact hkept
        | none => exact ih w' (fun u hu => hE u (List.mem_cons_of_mem _ hu)) hkept

/-- A replay that starts with a kept assignment ends with one. -/
theorem play_best_isSome (goal : Goal) (budget : Budget) (E : List (Event α)) :
    ∀ {w : Walk α}, w.best.isSome → ((play goal budget E w).1.best).isSome := by
  induction E with
  | nil => exact id
  | cons e E ih =>
    intro w h
    cases e with
    | check =>
      rw [play_check]
      cases budget.exhausted w with
      | some o => exact h
      | none => exact ih h
    | fail => exact ih h
    | leaf v =>
      have hk := record_best_isSome goal (w := { w with values := v }) h
      rw [play_leaf]
      cases hr : record goal { w with values := v } with
      | mk w' o =>
        rw [hr] at hk
        cases o with
        | some o => exact hk
        | none => exact ih hk

/-- A budget interrupts a run to stop it or to restart it, never to complete it. -/
theorem exhausted_ne_completed {β : Type} (budget : Budget) (w : Walk β) :
    budget.exhausted w ≠ some .completed := by
  unfold Budget.exhausted
  split
  · simp
  · split
    · split <;> simp
    · simp

/-- The goal of a search keeps an assignment at every complete assignment it meets. -/
theorem record_searchGoal_isSome (m : FlatModel α) (w : Walk α) :
    ((record m.searchGoal w).1.best).isSome := by
  rw [record_best]
  unfold FlatModel.searchGoal
  cases m.objective with
  | none => rfl
  | some o =>
    cases w.best with
    | none => rfl
    | some b =>
      rw [keep_optimise_some]
      split_ifs <;> rfl

/-- A replay for the goal of a search that completes without keeping an assignment met none. -/
theorem play_completed_leaves (m : FlatModel α) (budget : Budget) (E : List (Event α)) :
    ∀ (w : Walk α), (play m.searchGoal budget E w).2.getD .completed = .completed →
      (play m.searchGoal budget E w).1.best = none → leaves E = [] := by
  induction E with
  | nil => exact fun _ _ _ => rfl
  | cons e E ih =>
    intro w hdone hnone
    cases e with
    | check =>
      rw [play_check] at hdone hnone
      cases hex : budget.exhausted w with
      | some o =>
        rw [hex] at hdone
        exact absurd (hex.trans (congrArg some hdone)) (exhausted_ne_completed budget w)
      | none =>
        rw [hex] at hdone hnone
        exact ih w hdone hnone
    | fail => exact ih _ hdone hnone
    | leaf v =>
      -- the goal keeps `v`, and a kept assignment stays kept
      have hk := record_searchGoal_isSome m { w with values := v }
      rw [play_leaf] at hnone
      cases hr : record m.searchGoal { w with values := v } with
      | mk w' o =>
        rw [hr] at hk hnone
        cases o with
        | some o =>
          rw [hnone] at hk
          cases hk
        | none =>
          have := play_best_isSome m.searchGoal budget E hk
          rw [hnone] at this
          cases this

end Kept

/-! ### Runs of a plan fit for the model -/

section Plans

variable {α : Type} [Scalar α] {m : FlatModel α} {p : Plan α}

omit [Scalar α] in
/-- Levels fit for a descent read their rows above. -/
theorem readsAbove_of_filed {rows : Array (Row α)} {lvls : List (Level α)}
    (h : Filed rows lvls) : ReadsAbove rows lvls := by
  induction lvls with
  | nil => trivial
  | cons lv rest ih => exact ⟨h.2.1, ih h.2.2⟩

/-- A run whose rows without terms fail changes no value and keeps the best assignment. -/
theorem Plan.run_of_constant_fail (goal : Goal) (budget : Budget) (w : Walk α)
    (hfail : rowsHold m.rows p.constantRows w.values = false) :
    ∃ c, p.run m.rows goal budget w =
      ({ w with runFailures := 0, stats.checks := c }, .completed) := by
  obtain ⟨c, hc⟩ := checkRows_eq m.rows { w with runFailures := 0 } p.constantRows
  refine ⟨c, ?_⟩
  simp only [Plan.run]
  rw [hc]
  simp only [hfail, Bool.false_eq_true, if_false]

/-- The events of the levels from the empty walk meet the solutions listed, when the rows
without terms hold. -/
theorem Plan.leaves_events_startWalk
    (hok : rowsHold m.rows p.constantRows m.startWalk.values = true) :
    leaves (events m.rows p.levels m.startWalk.values) = p.answer m := by
  rw [leaves_events, Plan.answer, if_pos hok]

/-- Without limits and restarts, a run from the empty walk keeps what a replay of events meeting
exactly the solutions listed keeps. -/
theorem Plan.run_unbounded_replays (hp : p.Fits m) (goal : Goal) :
    ∃ E, leaves E = p.answer m ∧
      (p.run m.rows goal unbounded m.startWalk).1.best =
        (play goal unbounded E m.startWalk).1.best := by
  cases hok : rowsHold m.rows p.constantRows m.startWalk.values with
  | false =>
    obtain ⟨c, hc⟩ := Plan.run_of_constant_fail goal unbounded m.startWalk hok
    refine ⟨[], ?_, by rw [hc]; rfl⟩
    rw [Plan.answer, if_neg (by rw [hok]; decide)]
    rfl
  | true =>
    obtain ⟨h₁, -, -⟩ := Plan.run_replays (readsAbove_of_filed hp.filed) goal unbounded
      m.startWalk (AgreeOff.refl _ _) hok
    exact ⟨_, Plan.leaves_events_startWalk hok, h₁.best⟩

/-- What every run of a search over a plan fit for the model keeps: values that agree with the
empty walk off the plan's columns, and a best assignment, if any, among the solutions listed. -/
def Plan.Keeps (p : Plan α) (m : FlatModel α) (w : Walk α) : Prop :=
  AgreeOff (columnsOf p.levels) w.values m.startWalk.values ∧
    ∀ v, w.best = some v → v ∈ p.answer m

theorem Plan.keeps_startWalk : p.Keeps m m.startWalk :=
  ⟨AgreeOff.refl _ _, fun _ h => by cases h⟩

/-- Every run keeps `Plan.Keeps`, whatever its goal and budget. -/
theorem Plan.run_keeps (hp : p.Fits m) (goal : Goal) (budget : Budget) {w : Walk α}
    (hw : p.Keeps m w) : p.Keeps m (p.run m.rows goal budget w).1 := by
  obtain ⟨hV, hbest⟩ := hw
  cases hok : rowsHold m.rows p.constantRows w.values with
  | false =>
    obtain ⟨c, hc⟩ := Plan.run_of_constant_fail goal budget w hok
    rw [hc]
    exact ⟨hV, hbest⟩
  | true =>
    have hok₀ : rowsHold m.rows p.constantRows m.startWalk.values = true := by
      rw [rowsHold_constant hp _ w.values]
      exact hok
    obtain ⟨h₁, -, h₃⟩ := Plan.run_replays (readsAbove_of_filed hp.filed) goal budget w hV hok
    refine ⟨h₃, fun v hv => ?_⟩
    rw [h₁.best] at hv
    refine play_best_mem goal budget _ { w with runFailures := 0 } (fun u hu => ?_) hbest v hv
    rwa [Plan.leaves_events_startWalk hok₀] at hu

/-- A run for the goal of the model that completes without keeping an assignment shows that no
solution is listed. -/
theorem Plan.answer_eq_nil_of_run (hp : p.Fits m) (budget : Budget) {w : Walk α}
    (hw : p.Keeps m w) (hdone : (p.run m.rows m.searchGoal budget w).2 = .completed)
    (hnone : (p.run m.rows m.searchGoal budget w).1.best = none) : p.answer m = [] := by
  cases hok : rowsHold m.rows p.constantRows w.values with
  | false =>
    rw [Plan.answer, if_neg (by rw [rowsHold_constant hp _ w.values, hok]; decide)]
  | true =>
    have hok₀ : rowsHold m.rows p.constantRows m.startWalk.values = true := by
      rw [rowsHold_constant hp _ w.values]
      exact hok
    obtain ⟨h₁, h₂, -⟩ :=
      Plan.run_replays (readsAbove_of_filed hp.filed) m.searchGoal budget w hw.1 hok
    rw [← Plan.leaves_events_startWalk hok₀]
    exact play_completed_leaves m budget _ _ (h₂.symm.trans hdone) (h₁.best.symm.trans hnone)

end Plans

section NotNaN

variable {α : Type} [Scalar α] [Scalar.LawfulOrder α]

/-- Enumerated values are never NaN: they are integers, or the bound of a fixed continuous
column, which equals the other bound. -/
theorem isNaN_of_mem_candidates {c : Column α} {d : List α} (hd : candidates c = some d)
    {x : α} (hx : x ∈ d) : Scalar.isNaN x = false := by
  cases hI : c.isIntegral with
  | false =>
    rw [candidates_of_continuous hI] at hd
    split at hd
    · cases hd
    · next hne =>
      cases hd
      rw [List.mem_singleton.1 hx]
      exact Scalar.LawfulOrder.isNaN_of_beq c.lower c.upper (by simpa [bne] using hne)
  | true =>
    cases hv : c.values with
    | some vs =>
      rw [candidates_of_listed hI hv, Option.some.injEq] at hd
      subst hd
      obtain ⟨z, -, rfl⟩ := List.mem_map.1 (List.mem_filter.1 hx).1
      exact Scalar.LawfulOrder.isNaN_ofInt z
    | none =>
      rw [candidates_of_unlisted hI hv] at hd
      split at hd
      · cases hd
      · cases hd
        obtain ⟨k, -, rfl⟩ := List.mem_map.1 hx
        exact Scalar.LawfulOrder.isNaN_ofInt _

end NotNaN

end Search

/-- What a solution says of a model whose solutions, in the order of the search, are `S`: it is
`sat` exactly when there is one, and `unsat` comes with no values and no objective value; a
satisfying answer is the first solution, or, for an objective, the first solution that no
solution improves on, with the value of its objective column as objective value. -/
structure Solution.Answers {α : Type} [Scalar α] (s : Solution α) (m : FlatModel α)
    (S : List (Array α)) : Prop where
  sat_iff : s.status = .sat ↔ S ≠ []
  unsat : s.status = .unsat → s.values = #[] ∧ s.objectiveValue = none
  first : s.status = .sat → m.objective = none → S.head? = some s.values
  best : s.status = .sat → ∀ o, m.objective = some o →
    Search.FirstBest o.sense o.column S s.values ∧
      ∃ x, s.values[o.column]? = some x ∧ s.objectiveValue = some x

namespace FlatModel

open Search

section Report

variable {α : Type} [Scalar α] {m : FlatModel α}

/-- The objective names a column of the model. -/
def ObjectiveOnColumn (m : FlatModel α) : Prop :=
  ∀ o, m.objective = some o → o.column < m.columns.size

omit [Scalar α] in
theorem report_of_none {w : Walk α} (h : w.best = none) (c : Bool) :
    m.report w c = .ok { status := if c then .unsat else .unknown, stats := w.stats } := by
  unfold report
  rw [h]
  rfl

omit [Scalar α] in
theorem report_of_some {w : Walk α} {v : Array α} (h : w.best = some v)
    (hobj : m.ObjectiveOnColumn) (c : Bool) :
    m.report w c =
      .ok { status := .sat, values := v, objectiveValue := m.objectiveValue v, stats := w.stats } := by
  unfold report
  rw [h]
  cases ho : m.objective with
  | none => rfl
  | some o =>
    simp only [Nat.not_le.2 (hobj o ho), if_false]
    rfl

/-- Planning reads neither the failure limit nor the restart policy: without limits, the
solutions listed are the plan's answer. -/
theorem allSolutions_of_plan {cfg : SearchConfig} {p : Plan α}
    (hplan : Plan.ofModel m cfg = .ok (some p)) (hp : p.Fits m) :
    m.allSolutions { cfg with failureLimit := 0 } = .ok (p.answer m) := by
  have hplan₀ : Plan.ofModel m { cfg with failureLimit := 0 } = .ok (some p) := hplan
  have hnever : ∀ w : Walk α, Budget.exhausted ⟨0, none⟩ w = none :=
    fun w => by simp [Budget.exhausted]
  simp only [allSolutions, hplan₀]
  exact congrArg Except.ok ((p.run_found hp _).2 hnever)

end Report

theorem Solution.Answers.of_nil {α : Type} [Scalar α] {s : Solution α} {m : FlatModel α}
    (h : s.status ≠ .sat) (hu : s.status = .unsat → s.values = #[] ∧ s.objectiveValue = none) :
    s.Answers m [] :=
  ⟨iff_of_false h (by simp), hu, fun h' => absurd h' h, fun h' => absurd h' h⟩

/-- The answer reported from the assignment kept without limits: the first solution listed, or,
optimising, the fold of `keep` over them. -/
theorem report_answers {α : Type} [Scalar α] [Scalar.LawfulOrder α] {m : FlatModel α}
    (hobj : m.ObjectiveOnColumn) {S : List (Array α)} (hS : ∀ v ∈ S, m.IsCandidate v) {w : Walk α}
    (hfirst : m.objective = none → w.best = S.head?)
    (hopt : ∀ o, m.objective = some o → w.best = S.foldl (Goal.optimise o.sense o.column).keep none) :
    ∃ s, m.report w true = .ok s ∧ s.status ≠ .unknown ∧ s.Answers m S := by
  cases S with
  | nil =>
    -- nothing kept: unsat
    have hb : w.best = none := by
      cases ho : m.objective with
      | none => exact hfirst ho
      | some o => exact hopt o ho
    exact ⟨_, report_of_none hb true, by simp,
      Solution.Answers.of_nil (by simp) fun _ => ⟨rfl, rfl⟩⟩
  | cons v rest =>
    cases ho : m.objective with
    | none =>
      refine ⟨_, report_of_some ((hfirst ho).trans rfl) hobj true, by simp, ⟨?_, ?_, ?_, ?_⟩⟩
      · exact iff_of_true rfl (List.cons_ne_nil _ _)
      · intro h
        cases h
      · exact fun _ _ => rfl
      · intro _ o h
        rw [ho] at h
        cases h
    | some o =>
      -- the objective values of solutions are never NaN
      have hcol : o.column < m.columns.size := hobj o ho
      have hnan : ∀ u ∈ v :: rest, Scalar.isNaN (u.getD o.column Scalar.zero) = false := by
        intro u hu
        obtain ⟨hsize, hcand⟩ := hS u hu
        obtain ⟨d, hd, x, hx, hux⟩ := hcand o.column _ (Array.getElem?_eq_getElem hcol)
        rw [Array.getD_eq_getD_getElem?, hux, Option.getD_some]
        exact isNaN_of_mem_candidates hd hx
      obtain ⟨b, hb, hbest⟩ := foldl_keep_firstBest o.sense o.column _ (List.cons_ne_nil _ _) hnan
      have hmem : b ∈ v :: rest := by
        obtain ⟨pre, post, hsplit, -⟩ := hbest
        rw [hsplit]
        simp
      have hsize : o.column < b.size := by
        rw [(hS b hmem).1]
        exact hcol
      refine ⟨_, report_of_some ((hopt o ho).trans hb) hobj true, by simp, ⟨?_, ?_, ?_, ?_⟩⟩
      · exact iff_of_true rfl (List.cons_ne_nil _ _)
      · intro h
        cases h
      · intro _ h
        rw [ho] at h
        cases h
      · intro _ o' h
        rw [ho, Option.some.injEq] at h
        subst h
        refine ⟨hbest, b[o.column], Array.getElem?_eq_getElem hsize, ?_⟩
        simp only [objectiveValue, ho, Option.bind_some, Array.getElem?_eq_getElem hsize]

/-- Without a failure limit and without restarts: `unknown` exactly when some column cannot be
enumerated, and otherwise the answer of a complete search over the solutions listed. -/
theorem solve_unbounded_answers {α : Type} [Scalar α] [Scalar.LawfulOrder α] (m : FlatModel α)
    (cfg : SearchConfig) (hm : m.Searchable) (hobj : m.ObjectiveOnColumn) :
    ∃ s S, m.solve { cfg with failureLimit := 0, restart := none } = .ok s ∧
      m.allSolutions { cfg with failureLimit := 0 } = .ok S ∧
      (s.status = .unknown ↔ ∃ c ∈ m.columns, candidates c = none) ∧ s.Answers m S := by
  by_cases hnone : ∃ c ∈ m.columns, candidates c = none
  · -- no plan: nothing listed, and the search cannot tell
    refine ⟨{ status := .unknown }, [], ?_, allSolutions_of_none hnone _,
      iff_of_true rfl hnone, Solution.Answers.of_nil (by simp) fun h => by cases h⟩
    simp only [solve, Plan.ofModel_of_none hnone]
    rfl
  · have hdoms : ∀ c ∈ m.columns, (candidates c).isSome := fun c hc =>
      Option.ne_none_iff_isSome.1 fun h => hnone ⟨c, hc, h⟩
    obtain ⟨p, hplan, hp⟩ := Plan.ofModel_fits hm hdoms cfg
    have hplan₀ : Plan.ofModel m { cfg with failureLimit := 0, restart := none } = .ok (some p) :=
      hplan
    -- the one run completes
    have hrun := Plan.runUntilDone_unbounded (readsAbove_of_filed hp.filed) m.searchGoal
      (show ({ cfg with failureLimit := 0, restart := none } : SearchConfig).failureLimit = 0 from rfl)
      rfl (maxRuns - 1) 0 m.startWalk
    have hmax : maxRuns - 1 + 1 = maxRuns := rfl
    rw [hmax] at hrun
    obtain ⟨E, hE, hbest⟩ := Plan.run_unbounded_replays hp m.searchGoal
    have hfirst : m.objective = none →
        (p.run m.rows m.searchGoal unbounded m.startWalk).1.best = (p.answer m).head? := by
      intro ho
      rw [hbest, ← hE]
      simp only [searchGoal, ho]
      rw [play_first_best]
      exact Option.or_none
    have hopt : ∀ o, m.objective = some o →
        (p.run m.rows m.searchGoal unbounded m.startWalk).1.best =
          (p.answer m).foldl (Goal.optimise o.sense o.column).keep none := by
      intro o ho
      rw [hbest, ← hE]
      simp only [searchGoal, ho]
      exact (play_optimise o.sense o.column E m.startWalk).1
    obtain ⟨s, hs, hknown, hans⟩ := report_answers hobj (fun v hv => ((p.mem_answer hp).1 hv).1)
      hfirst hopt
    refine ⟨s, p.answer m, ?_, allSolutions_of_plan hplan hp,
      iff_of_false hknown hnone, hans⟩
    rw [solve_of_plan hplan₀, hrun]
    exact hs

/-- With a failure limit and any restart policy: the failures stay within the limit, a
satisfying answer is one of the solutions listed without a limit, and `unsat` is reported only
when none is listed, after a run that completed. -/
theorem solve_limited_sound {α : Type} [Scalar α] (m : FlatModel α) (cfg : SearchConfig)
    (hm : m.Searchable) (hobj : m.ObjectiveOnColumn) (hL : 0 < cfg.failureLimit) :
    ∃ s S, m.solve cfg = .ok s ∧ m.allSolutions { cfg with failureLimit := 0 } = .ok S ∧
      s.stats.failures ≤ cfg.failureLimit ∧ (s.status = .sat → s.values ∈ S) ∧
      (s.status = .unsat → S = []) := by
  by_cases hnone : ∃ c ∈ m.columns, candidates c = none
  · refine ⟨{ status := .unknown }, [], ?_, allSolutions_of_none hnone _, Nat.zero_le _, ?_, ?_⟩
    · simp only [solve, Plan.ofModel_of_none hnone]
      rfl
    · intro h
      cases h
    · intro h
      cases h
  have hdoms : ∀ c ∈ m.columns, (candidates c).isSome := fun c hc =>
    Option.ne_none_iff_isSome.1 fun h => hnone ⟨c, hc, h⟩
  obtain ⟨p, hplan, hp⟩ := Plan.ofModel_fits hm hdoms cfg
  -- the two invariants of the runs
  have hfail : (p.runUntilDone m.rows m.searchGoal cfg maxRuns 0 m.startWalk).1.stats.failures ≤
      cfg.failureLimit :=
    (Plan.runUntilDone_keeps cfg (fun w => w.stats.failures ≤ cfg.failureLimit)
      (fun run w hw => Plan.run_failures_le (show 0 < (runBudget cfg run).failureLimit from hL)
        p m.searchGoal w hw)
      maxRuns 0 m.startWalk (Nat.zero_le _)).1
  obtain ⟨hkeeps, hlast⟩ := Plan.runUntilDone_keeps cfg (p.Keeps m)
    (fun run w hw => Plan.run_keeps hp m.searchGoal _ hw) maxRuns 0 m.startWalk Plan.keeps_startWalk
  rw [solve_of_plan hplan]
  cases hb : (p.runUntilDone m.rows m.searchGoal cfg maxRuns 0 m.startWalk).1.best with
  | none =>
    refine ⟨_, p.answer m, report_of_none hb _, allSolutions_of_plan hplan hp, hfail, ?_, ?_⟩
    · intro h
      split at h <;> cases h
    intro h
    -- `unsat`: the last run completed without keeping an assignment
    have hdone : (p.runUntilDone m.rows m.searchGoal cfg maxRuns 0 m.startWalk).2 = true := by
      revert h
      cases (p.runUntilDone m.rows m.searchGoal cfg maxRuns 0 m.startWalk).2 <;> simp
    obtain ⟨run, w, hw, hcompleted, heq⟩ := hlast hdone
    exact Plan.answer_eq_nil_of_run hp _ hw hcompleted (heq ▸ hb)
  | some v =>
    refine ⟨_, p.answer m, report_of_some hb hobj _, allSolutions_of_plan hplan hp, hfail,
      fun _ => hkeeps.2 v hb, ?_⟩
    intro h
    cases h

/-- The search answers soundly and optimally. Over scalars with a lawful order, for a searchable
model whose objective, if any, names a column: without a failure limit and restarts, the status
is `unknown` exactly when some column cannot be enumerated (read off its bounds by
`Search.candidates_eq_none_iff` for exact values), and otherwise `sat` exactly when a solution is
listed, with the first solution listed, or, for an objective, the first one no solution improves
on and its objective value, and `unsat` with no values; with a positive failure limit and any
restart policy, the failures stay within the limit, a satisfying answer is a solution listed,
and `unsat` means that none is. -/
theorem solve_sound_and_optimal {α : Type} [Scalar α] [Scalar.LawfulOrder α] (m : FlatModel α)
    (cfg : SearchConfig) (hm : m.Searchable) (hobj : m.ObjectiveOnColumn) :
    (∃ s S, m.solve { cfg with failureLimit := 0, restart := none } = .ok s ∧
      m.allSolutions { cfg with failureLimit := 0 } = .ok S ∧
      (s.status = .unknown ↔ ∃ c ∈ m.columns, candidates c = none) ∧ s.Answers m S) ∧
    (0 < cfg.failureLimit → ∃ s S, m.solve cfg = .ok s ∧
      m.allSolutions { cfg with failureLimit := 0 } = .ok S ∧
      s.stats.failures ≤ cfg.failureLimit ∧ (s.status = .sat → s.values ∈ S) ∧
      (s.status = .unsat → S = [])) :=
  ⟨solve_unbounded_answers m cfg hm hobj, fun hL => solve_limited_sound m cfg hm hobj hL⟩

theorem restartModel_searchable : restartModel.Searchable where
  decisions_nodup := List.nodup_nil
  decisions_lt := fun _ h => absurd h List.not_mem_nil
  terms_lt := by
    simp only [restartModel, List.mem_toArray, forall_eq, List.mem_cons, List.mem_nil_iff,
      or_false]
    rintro t (rfl | rfl) <;> decide

theorem restartModel_objectiveOnColumn : restartModel.ObjectiveOnColumn := by
  intro o ho
  simp only [restartModel, Option.some.injEq] at ho
  subst ho
  decide

/-- The statement at the model that maximises `y` over `x ∈ [0, 1]`, `y ∈ [0, 3]`, `y ≤ 3x`, with
a failure limit of `2` and Luby restarts. -/
theorem restartModel_sound_and_optimal :
    Scalar.LawfulOrder ERat ∧ restartModel.Searchable ∧ restartModel.ObjectiveOnColumn ∧
    (∃ s S, restartModel.solve
          { ({ failureLimit := 2, restart := some (.luby 2) } : SearchConfig) with
            failureLimit := 0, restart := none } = .ok s ∧
        restartModel.allSolutions
          { ({ failureLimit := 2, restart := some (.luby 2) } : SearchConfig) with
            failureLimit := 0 } = .ok S ∧
        (s.status = .unknown ↔ ∃ c ∈ restartModel.columns, candidates c = none) ∧
        s.Answers restartModel S) ∧
    (0 < ({ failureLimit := 2, restart := some (.luby 2) } : SearchConfig).failureLimit →
      ∃ s S, restartModel.solve { failureLimit := 2, restart := some (.luby 2) } = .ok s ∧
        restartModel.allSolutions
          { ({ failureLimit := 2, restart := some (.luby 2) } : SearchConfig) with
            failureLimit := 0 } = .ok S ∧
        s.stats.failures ≤ 2 ∧ (s.status = .sat → s.values ∈ S) ∧ (s.status = .unsat → S = [])) :=
  ⟨inferInstance, restartModel_searchable, restartModel_objectiveOnColumn,
    solve_sound_and_optimal restartModel { failureLimit := 2, restart := some (.luby 2) }
      restartModel_searchable restartModel_objectiveOnColumn⟩

end FlatModel

end MipLowering
