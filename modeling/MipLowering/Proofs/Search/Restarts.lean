import Mathlib.Data.List.Induction
import MipLowering.Proofs.Search.Replay
import MipLowering.Scalar.Exact

/-!
# Restarts keep the answer

A search with restarts runs the same descent again and again, each run under a failure cutoff,
and keeps its best assignment from one run to the next. Read through the events of the descent
(`Search.play`), a run with a cutoff replays the events of a run without one, up to the check
where its failures reach the cutoff (`Search.play_cutoff`). Replaying a prefix of the events again,
from what an earlier replay of a prefix kept, changes nothing (`Search.StablePrefixes`): a search
for a first solution keeps nothing before its first solution, and an optimising search replaces
its best assignment only by a strictly better one, so no assignment it has met replaces what it
kept. So when the runs end with one that completes, the best assignment is that of a single run
without cutoff, and the solution has the same status, values and objective value; only the
counters differ.

Strictly better is `<` of the scalars, read as an irreflexive and transitive relation, as the
comparison of doubles is.

## Main definitions

* `MipLowering.Search.Goal.keep`, `MipLowering.Search.leaves`,
  `MipLowering.Search.StablePrefixes`, `MipLowering.Search.Settled`.
* `MipLowering.FlatModel.searchGoal`, `MipLowering.FlatModel.runsComplete`,
  `MipLowering.Solution.answer`.

## Main results

* `MipLowering.Search.play_cutoff` — a cutoff stops a replay at a check, or changes nothing.
* `MipLowering.Search.stablePrefixes_first`, `MipLowering.Search.stablePrefixes_optimise`.
* `MipLowering.Search.Plan.run_settled` — one run from a settled walk completes with the best
  assignment of a replay without cutoff, or restarts from a settled walk.
* `MipLowering.Search.Plan.runUntilDone_restart` — runs that end with a complete one keep the
  best assignment of the runs without restarts.
* `MipLowering.FlatModel.solve_restart_answer` — restarts do not change the answer.
-/

namespace MipLowering

namespace Search

variable {α : Type} [Scalar α]

/-! ### Recording and the assignments met -/

/-- The best assignment after recording `v` where `best` was kept. -/
def Goal.keep (goal : Goal) (best : Option (Array α)) (v : Array α) : Option (Array α) :=
  (record goal { values := v, best }).1.best

theorem record_best (goal : Goal) (w : Walk α) :
    (record goal w).1.best = goal.keep w.best w.values := by
  cases goal with
  | optimise sense col =>
    simp only [Goal.keep, record]
    split_ifs <;> rfl
  | _ => rfl

/-- Whether recording stops the run depends on the goal only. -/
theorem record_snd (goal : Goal) (w w' : Walk α) : (record goal w).2 = (record goal w').2 := by
  cases goal <;> rfl

theorem record_optimise (sense : Sense) (col : Nat) (w : Walk α) :
    record (.optimise sense col) w = ((record (.optimise sense col) w).1, none) := rfl

theorem record_first (w : Walk α) :
    record .first w = ({ w with best := some w.values }, some .completed) := rfl

/-- The comparison that makes an assignment better for an objective. -/
def improves (sense : Sense) (a b : α) : Bool :=
  match sense with
  | .minimise => decide (a < b)
  | .maximise => decide (b < a)

theorem keep_optimise_none (sense : Sense) (col : Nat) (v : Array α) :
    (Goal.optimise sense col).keep none v = some v := rfl

theorem keep_optimise_some (sense : Sense) (col : Nat) (b v : Array α) :
    (Goal.optimise sense col).keep (some b) v =
      if improves sense (v.getD col Scalar.zero) (b.getD col Scalar.zero) then some v else some b := by
  cases sense <;>
  · simp only [Goal.keep, record, improves]
    split_ifs <;> simp_all

theorem improves_irrefl (hirr : ∀ a : α, ¬a < a) (sense : Sense) (a : α) :
    improves sense a a = false := by
  cases sense <;> simp [improves, hirr]

theorem improves_trans (htrans : ∀ a b c : α, a < b → b < c → a < c) (sense : Sense) {a b c : α}
    (hab : improves sense a b = true) (hbc : improves sense b c = true) :
    improves sense a c = true := by
  cases sense with
  | minimise =>
    simp only [improves, decide_eq_true_eq] at *
    exact htrans a b c hab hbc
  | maximise =>
    simp only [improves, decide_eq_true_eq] at *
    exact htrans c b a hbc hab

section Order

variable (hirr : ∀ a : α, ¬a < a) (htrans : ∀ a b c : α, a < b → b < c → a < c)
include hirr htrans

/-- Recording again an assignment already met changes nothing: the one kept is not worse than any
assignment met, since it was replaced only by strictly better ones. -/
theorem keep_stable (sense : Sense) (col : Nat) (b : Option (Array α)) (P : List (Array α)) :
    ∀ x ∈ P, (Goal.optimise sense col).keep (P.foldl (Goal.optimise sense col).keep b) x =
      P.foldl (Goal.optimise sense col).keep b := by
  induction P using List.reverseRecOn with
  | nil => exact fun _ h => absurd h List.not_mem_nil
  | append_singleton P y ih =>
    intro x hx
    rw [List.foldl_append, List.foldl_cons, List.foldl_nil]
    generalize hB : P.foldl (Goal.optimise sense col).keep b = B at ih
    have hbetter := improves_irrefl hirr sense (y.getD col Scalar.zero)
    rcases List.mem_append.1 hx with hx | hx
    · -- a member of the earlier list was not better than the one kept, nor than its replacement
      have hxB := ih x hx
      cases B with
      | none => simp [keep_optimise_none] at hxB
      | some b' =>
        rw [keep_optimise_some]
        by_cases hyb : improves sense (y.getD col Scalar.zero) (b'.getD col Scalar.zero) = true
        · rw [if_pos hyb, keep_optimise_some]
          have hxy : improves sense (x.getD col Scalar.zero) (y.getD col Scalar.zero) = false := by
            by_contra hxy
            rw [Bool.not_eq_false] at hxy
            have hxb := improves_trans htrans sense hxy hyb
            rw [keep_optimise_some, if_pos hxb, Option.some.injEq] at hxB
            subst hxB
            have := improves_trans htrans sense hyb hxy
            rw [improves_irrefl hirr] at this
            cases this
          rw [if_neg (by rw [hxy]; decide)]
        · rw [if_neg hyb]
          exact hxB
    · rw [List.mem_singleton.1 hx]
      cases B with
      | none => rw [keep_optimise_none, keep_optimise_some, hbetter]; rfl
      | some b' =>
        rw [keep_optimise_some]
        split_ifs with hyb
        · rw [keep_optimise_some, hbetter]; rfl
        · rw [keep_optimise_some, if_neg hyb]

end Order

/-- The fold of `keep` is left as it is by assignments that do not replace it. -/
theorem foldl_keep_of_forall (goal : Goal) {B : Option (Array α)} :
    ∀ {L : List (Array α)}, (∀ x ∈ L, goal.keep B x = B) → L.foldl goal.keep B = B
  | [], _ => rfl
  | x :: L, h => by
    rw [List.foldl_cons, h x List.mem_cons_self]
    exact foldl_keep_of_forall goal fun y hy => h y (List.mem_cons_of_mem x hy)

/-- The complete assignments met along a list of events. -/
def leaves : List (Event α) → List (Array α)
  | [] => []
  | .check :: es => leaves es
  | .fail :: es => leaves es
  | .leaf v :: es => v :: leaves es

omit [Scalar α] in
@[simp] theorem leaves_append (E₁ E₂ : List (Event α)) :
    leaves (E₁ ++ E₂) = leaves E₁ ++ leaves E₂ := by
  induction E₁ with
  | nil => rfl
  | cons e E₁ ih => cases e <;> simp [leaves, ih]

omit [Scalar α] in
theorem isPrefix_leaves {Q P : List (Event α)} (h : Q <+: P) : leaves Q <+: leaves P := by
  obtain ⟨R, rfl⟩ := h
  rw [leaves_append]
  exact List.prefix_append _ _

/-! ### Replays without a cutoff -/

/-- The budget of a search without failure limit and without restarts. -/
abbrev unbounded : Budget := ⟨0, none⟩

@[simp] theorem exhausted_unbounded {β : Type} (w : Walk β) : unbounded.exhausted w = none := rfl

/-- Without a failure limit, a cutoff only ever restarts. -/
theorem exhausted_cutoff {β : Type} (c : Option Nat) (w : Walk β) :
    (⟨0, c⟩ : Budget).exhausted w = none ∨ (⟨0, c⟩ : Budget).exhausted w = some .restart := by
  cases c with
  | none => exact Or.inl rfl
  | some c =>
    simp only [Budget.exhausted, gt_iff_lt, Nat.lt_irrefl, decide_false, Bool.false_and,
      Bool.false_eq_true, if_false]
    split_ifs
    · exact Or.inr rfl
    · exact Or.inl rfl

theorem record_snd_cases (goal : Goal) (w : Walk α) :
    (record goal w).2 = none ∨ (record goal w).2 = some .completed := by
  cases goal <;> simp [record]

variable {goal : Goal}

/-- A replay without cutoff is not interrupted, or completes. -/
theorem play_unbounded_snd (E : List (Event α)) (w : Walk α) :
    (play goal unbounded E w).2 = none ∨ (play goal unbounded E w).2 = some .completed := by
  induction E generalizing w with
  | nil => exact Or.inl rfl
  | cons e E ih =>
    cases e with
    | check => rw [play_check_of_none (exhausted_unbounded w)]; exact ih w
    | fail => exact ih _
    | leaf v =>
      rw [play_leaf]
      rcases record_snd_cases goal { w with values := v } with h | h <;>
      · revert h
        cases record goal { w with values := v } with
        | mk w' o =>
          rintro rfl
          first | exact ih w' | exact Or.inr rfl

/-- Without a cutoff, what a replay keeps and whether it completes depend only on the best
assignment it starts from. -/
theorem play_unbounded_congr (E : List (Event α)) {w w' : Walk α} (h : w.best = w'.best) :
    (play goal unbounded E w).1.best = (play goal unbounded E w').1.best ∧
      (play goal unbounded E w).2 = (play goal unbounded E w').2 := by
  induction E generalizing w w' with
  | nil => exact ⟨h, rfl⟩
  | cons e E ih =>
    cases e with
    | check =>
      rw [play_check_of_none (exhausted_unbounded w), play_check_of_none (exhausted_unbounded w')]
      exact ih h
    | fail => exact ih h
    | leaf v =>
      have hb : (record goal { w with values := v }).1.best =
          (record goal { w' with values := v }).1.best := by
        rw [record_best, record_best]
        exact congrArg (goal.keep · v) h
      have ho := record_snd goal { w with values := v } { w' with values := v }
      rw [play_leaf, play_leaf]
      revert hb ho
      cases record goal { w with values := v } with
      | mk r o =>
        cases record goal { w' with values := v } with
        | mk r' o' =>
          rintro hb rfl
          cases o with
          | some o => exact ⟨hb, rfl⟩
          | none => exact ih hb

/-- Optimising, a replay without cutoff is never interrupted and keeps the fold of `keep` over
the assignments met. -/
theorem play_optimise (sense : Sense) (col : Nat) (E : List (Event α)) (w : Walk α) :
    (play (.optimise sense col) unbounded E w).1.best =
        (leaves E).foldl (Goal.optimise sense col).keep w.best ∧
      (play (.optimise sense col) unbounded E w).2 = none := by
  induction E generalizing w with
  | nil => exact ⟨rfl, rfl⟩
  | cons e E ih =>
    cases e with
    | check => rw [play_check_of_none (exhausted_unbounded w)]; exact ih w
    | fail => exact ih _
    | leaf v =>
      rw [play_leaf, record_optimise]
      have h := ih (record (.optimise sense col) { w with values := v }).1
      rw [record_best] at h
      exact h

/-- Looking for a first solution, a replay without cutoff completes at the first assignment met,
and keeps the best assignment it starts from until then. -/
theorem play_first (E : List (Event α)) (w : Walk α) :
    (leaves E = [] → (play .first unbounded E w).1.best = w.best ∧
      (play .first unbounded E w).2 = none) ∧
    (leaves E ≠ [] → (play .first unbounded E w).2 = some .completed) := by
  induction E generalizing w with
  | nil => exact ⟨fun _ => ⟨rfl, rfl⟩, fun h => absurd rfl h⟩
  | cons e E ih =>
    cases e with
    | check => rw [play_check_of_none (exhausted_unbounded w)]; exact ih w
    | fail => exact ih _
    | leaf v =>
      refine ⟨fun h => absurd h (List.cons_ne_nil _ _), fun _ => ?_⟩
      rw [play_leaf, record_first]

/-! ### Replaying a prefix again -/

variable (α) in
/-- Replaying a prefix of uninterrupted events again, from the best assignment their replay
kept, keeps it and is not interrupted. -/
def StablePrefixes (goal : Goal) : Prop :=
  ∀ (P Q : List (Event α)) (w u : Walk α), Q <+: P → (play goal unbounded P w).2 = none →
    u.best = (play goal unbounded P w).1.best →
    (play goal unbounded Q u).1.best = u.best ∧ (play goal unbounded Q u).2 = none

/-- Before its first solution, a search for one keeps nothing. -/
theorem stablePrefixes_first : StablePrefixes α .first := by
  intro P Q w u hQ hP _
  have hleaves : leaves P = [] := by
    by_contra hne
    rw [(play_first P w).2 hne] at hP
    cases hP
  exact (play_first Q u).1 (List.prefix_nil.1 (hleaves ▸ isPrefix_leaves hQ))

/-- An optimising search keeps an assignment not worse than any it has met. -/
theorem stablePrefixes_optimise (hirr : ∀ a : α, ¬a < a)
    (htrans : ∀ a b c : α, a < b → b < c → a < c) (sense : Sense) (col : Nat) :
    StablePrefixes α (.optimise sense col) := by
  intro P Q w u hQ _ hu
  obtain ⟨hQbest, hQnone⟩ := play_optimise sense col Q u
  refine ⟨?_, hQnone⟩
  rw [hQbest, hu, (play_optimise sense col P w).1]
  exact foldl_keep_of_forall _ fun x hx =>
    keep_stable hirr htrans sense col w.best (leaves P) x ((isPrefix_leaves hQ).subset hx)

/-- A cutoff changes nothing, or stops the replay at a check, with what a replay without cutoff
of the events before it keeps. -/
theorem play_cutoff (c : Option Nat) (E : List (Event α)) (w : Walk α) :
    play goal ⟨0, c⟩ E w = play goal unbounded E w ∨
      ∃ E₁ E₂ w₁, E = E₁ ++ E₂ ∧ play goal unbounded E₁ w = (w₁, none) ∧
        play goal ⟨0, c⟩ E w = (w₁, some .restart) := by
  induction E generalizing w with
  | nil => exact Or.inl rfl
  | cons e E ih =>
    cases e with
    | check =>
      rw [play_check_of_none (exhausted_unbounded w)]
      rcases exhausted_cutoff c w with h | h
      · rw [play_check_of_none h]
        rcases ih w with heq | ⟨E₁, E₂, w₁, rfl, h₁, h₂⟩
        · exact Or.inl heq
        · refine Or.inr ⟨.check :: E₁, E₂, w₁, rfl, ?_, h₂⟩
          rw [play_check_of_none (exhausted_unbounded w), h₁]
      · refine Or.inr ⟨[], .check :: E, w, rfl, rfl, ?_⟩
        rw [play_check, h]
    | fail =>
      rcases ih _ with heq | ⟨E₁, E₂, w₁, rfl, h₁, h₂⟩
      · exact Or.inl heq
      · exact Or.inr ⟨.fail :: E₁, E₂, w₁, rfl, h₁, h₂⟩
    | leaf v =>
      rw [play_leaf, play_leaf]
      cases hr : record goal { w with values := v } with
      | mk w' o =>
        cases o with
        | some o => exact Or.inl rfl
        | none =>
          rcases ih w' with heq | ⟨E₁, E₂, w₁, rfl, h₁, h₂⟩
          · exact Or.inl heq
          · refine Or.inr ⟨.leaf v :: E₁, E₂, w₁, rfl, ?_, h₂⟩
            rw [play_leaf, hr]
            exact h₁

/-! ### Runs of a plan -/

section Runs

variable {rows : Array (Row α)} {p : Plan α}

omit [Scalar α] in
theorem readOff_of_terms_nil {is : List Nat}
    (h : ∀ i ∈ is, ∀ r, rows[i]? = some r → r.terms = []) (cols : List Nat) :
    ReadOff rows is cols := by
  intro i hi r hr t ht
  rw [h i hi r hr] at ht
  cases ht

/-- A run whose rows without terms hold replays the events of the plan's levels, from the walk
reset for the run. -/
theorem Plan.run_replays (hread : ReadsAbove rows p.levels) (goal : Goal) (budget : Budget)
    (w : Walk α) {V : Array α} (hV : AgreeOff (columnsOf p.levels) w.values V)
    (hok : rowsHold rows p.constantRows w.values = true) :
    (p.run rows goal budget w).1.Tallies
        (play goal budget (events rows p.levels V) { w with runFailures := 0 }).1 ∧
      (p.run rows goal budget w).2 =
        (play goal budget (events rows p.levels V) { w with runFailures := 0 }).2.getD .completed ∧
      AgreeOff (columnsOf p.levels) (p.run rows goal budget w).1.values V := by
  obtain ⟨c, hc⟩ := checkRows_eq rows { w with runFailures := 0 } p.constantRows
  have ht : ({ w with runFailures := 0, stats.checks := c } : Walk α).Tallies
      { w with runFailures := 0 } := ⟨rfl, rfl, rfl, rfl⟩
  obtain ⟨h₁, h₂, h₃⟩ := descend_replays goal budget hread ht hV
  have hrun : p.run rows goal budget w =
      ((descend rows goal budget p.levels { w with runFailures := 0, stats.checks := c }).1,
        (descend rows goal budget p.levels
          { w with runFailures := 0, stats.checks := c }).2.getD .completed) := by
    simp only [Plan.run]
    rw [hc]
    simp only [hok, if_true]
  rw [hrun, h₂]
  exact ⟨h₁, rfl, h₃.trans hV⟩

/-- A run whose rows without terms fail completes at once and keeps its best assignment. -/
theorem Plan.run_of_rowsHold_false (goal : Goal) (budget : Budget) (w : Walk α)
    (hfail : rowsHold rows p.constantRows w.values = false) :
    (p.run rows goal budget w).1.best = w.best ∧ (p.run rows goal budget w).2 = .completed := by
  obtain ⟨c, hc⟩ := checkRows_eq rows { w with runFailures := 0 } p.constantRows
  simp only [Plan.run]
  rw [hc]
  simp only [hfail]
  exact ⟨rfl, rfl⟩

/-- A run without cutoff and without failure limit completes. -/
theorem Plan.run_unbounded (hread : ReadsAbove rows p.levels) (goal : Goal) (w : Walk α) :
    (p.run rows goal unbounded w).2 = .completed := by
  cases hok : rowsHold rows p.constantRows w.values with
  | false => exact (Plan.run_of_rowsHold_false goal unbounded w hok).2
  | true =>
    rw [(Plan.run_replays hread goal unbounded w (AgreeOff.refl _ _) hok).2.1]
    rcases play_unbounded_snd (events rows p.levels w.values) { w with runFailures := 0 } with
      h | h <;> rw [h] <;> rfl

variable (goal) in
/-- A walk a run may start from: its values agree with `V` off the columns `cols`, and its best
assignment is the one an uninterrupted replay without cutoff of a prefix of `E` from `u₀` kept. -/
def Settled (cols : List Nat) (V : Array α) (E : List (Event α)) (u₀ w : Walk α) : Prop :=
  AgreeOff cols w.values V ∧ ∃ P, P <+: E ∧ (play goal unbounded P u₀).2 = none ∧
    w.best = (play goal unbounded P u₀).1.best

/-- Replaying a prefix `E₁` of `E` from what a replay of a prefix `P` kept: the prefixes are
ordered, so the replay either repeats events already replayed, or goes on where `P` ended. -/
theorem replay_of_settled (hstable : StablePrefixes α goal) {P E E₁ : List (Event α)}
    {u₀ w : Walk α} (hP : P <+: E) (hPnone : (play goal unbounded P u₀).2 = none)
    (hw : w.best = (play goal unbounded P u₀).1.best) (hE₁ : E₁ <+: E) :
    ∃ Q, Q <+: E ∧ E₁ <+: Q ∧
      (play goal unbounded Q u₀).1.best = (play goal unbounded E₁ w).1.best ∧
      (play goal unbounded Q u₀).2 = (play goal unbounded E₁ w).2 := by
  rcases List.prefix_or_prefix_of_prefix hE₁ hP with h | h
  · -- `E₁` was replayed already: replaying it again keeps what `P` kept
    obtain ⟨hb, ho⟩ := hstable P E₁ u₀ w h hPnone hw
    exact ⟨P, hP, h, by rw [hb, hw], by rw [ho, hPnone]⟩
  · -- `E₁` goes on after `P`, from the same best assignment in both replays
    obtain ⟨R, rfl⟩ := h
    obtain ⟨hb, ho⟩ := hstable P P u₀ w (List.prefix_refl P) hPnone hw
    have hPu : play goal unbounded P u₀ = ((play goal unbounded P u₀).1, none) :=
      Prod.ext rfl hPnone
    have hPw : play goal unbounded P w = ((play goal unbounded P w).1, none) := Prod.ext rfl ho
    obtain ⟨hcb, hco⟩ := play_unbounded_congr R (hb.trans hw)
    refine ⟨P ++ R, hE₁, List.prefix_refl _, ?_, ?_⟩
    · rw [play_append_of_none hPu, play_append_of_none hPw, hcb]
    · rw [play_append_of_none hPu, play_append_of_none hPw, hco]

/-- One run of a restarting search from a settled walk: it completes with the best assignment of
a replay of all the events without cutoff, or it restarts from a settled walk. -/
theorem Plan.run_settled (hread : ReadsAbove rows p.levels)
    (hconst : ∀ i ∈ p.constantRows, ∀ r, rows[i]? = some r → r.terms = [])
    (hstable : StablePrefixes α goal) (c : Option Nat) {V : Array α}
    (hok : rowsHold rows p.constantRows V = true) {u₀ w : Walk α}
    (hs : Settled goal (columnsOf p.levels) V (events rows p.levels V) u₀ w) :
    ((p.run rows goal ⟨0, c⟩ w).2 = .completed ∧
        (p.run rows goal ⟨0, c⟩ w).1.best =
          (play goal unbounded (events rows p.levels V) u₀).1.best) ∨
      ((p.run rows goal ⟨0, c⟩ w).2 = .restart ∧
        Settled goal (columnsOf p.levels) V (events rows p.levels V) u₀ (p.run rows goal ⟨0, c⟩ w).1) := by
  obtain ⟨hV, P, hP, hPnone, hw⟩ := hs
  have hok' : rowsHold rows p.constantRows w.values = true := by
    rw [rowsHold_congr (readOff_of_terms_nil hconst _) hV]
    exact hok
  obtain ⟨h₁, h₂, h₃⟩ := Plan.run_replays hread goal ⟨0, c⟩ w hV hok'
  have hw' : ({ w with runFailures := 0 } : Walk α).best = (play goal unbounded P u₀).1.best := hw
  rcases play_cutoff c (events rows p.levels V) { w with runFailures := 0 } with
    heq | ⟨E₁, E₂, w₁, hE, hplay, hcut⟩
  · -- the cutoff was never reached: the run is the replay without cutoff of all the events
    left
    obtain ⟨Q, hQ, hEQ, hb, -⟩ := replay_of_settled hstable hP hPnone hw' (List.prefix_refl _)
    obtain rfl := hQ.eq_of_length_le hEQ.length_le
    refine ⟨?_, by rw [h₁.best, heq, hb]⟩
    rw [h₂, heq]
    rcases play_unbounded_snd (events rows p.levels V) { w with runFailures := 0 } with
      h | h <;> rw [h] <;> rfl
  · -- the run restarts where the replay without cutoff of `E₁` ended
    right
    have hE₁ : E₁ <+: events rows p.levels V := hE ▸ List.prefix_append E₁ E₂
    obtain ⟨Q, hQ, -, hb, ho⟩ := replay_of_settled hstable hP hPnone hw' hE₁
    refine ⟨by rw [h₂, hcut]; rfl, h₃, Q, hQ, by rw [ho, hplay], ?_⟩
    rw [h₁.best, hcut, hb, hplay]

/-- The budget of run `run`. -/
abbrev runBudget (cfg : SearchConfig) (run : Nat) : Budget :=
  ⟨cfg.failureLimit, cfg.restart.map fun r => r.cutoff run⟩

theorem Plan.runUntilDone_of_completed {cfg : SearchConfig} {fuel run : Nat} {w : Walk α}
    (h : (p.run rows goal (runBudget cfg run) w).2 = .completed) :
    p.runUntilDone rows goal cfg (fuel + 1) run w =
      ((p.run rows goal (runBudget cfg run) w).1, true) := by
  simp only [Plan.runUntilDone]
  revert h
  cases p.run rows goal (runBudget cfg run) w with
  | mk w₁ o => rintro rfl; rfl

theorem Plan.runUntilDone_of_restart {cfg : SearchConfig} {fuel run : Nat} {w : Walk α}
    (h : (p.run rows goal (runBudget cfg run) w).2 = .restart) :
    p.runUntilDone rows goal cfg (fuel + 1) run w =
      p.runUntilDone rows goal cfg fuel (run + 1) (p.run rows goal (runBudget cfg run) w).1 := by
  simp only [Plan.runUntilDone]
  revert h
  cases p.run rows goal (runBudget cfg run) w with
  | mk w₁ o => rintro rfl; rfl

/-- Runs that end with a complete one keep the best assignment of a replay without cutoff of all
the events: a step of the loop is a run from a settled walk (`Plan.run_settled`). -/
theorem Plan.runUntilDone_best (hread : ReadsAbove rows p.levels)
    (hconst : ∀ i ∈ p.constantRows, ∀ r, rows[i]? = some r → r.terms = [])
    (hstable : StablePrefixes α goal) {cfg : SearchConfig} (hlimit : cfg.failureLimit = 0)
    {V : Array α} (hok : rowsHold rows p.constantRows V = true) {u₀ : Walk α} :
    ∀ (fuel run : Nat) (w : Walk α),
      Settled goal (columnsOf p.levels) V (events rows p.levels V) u₀ w →
      (p.runUntilDone rows goal cfg fuel run w).2 = true →
      (p.runUntilDone rows goal cfg fuel run w).1.best =
        (play goal unbounded (events rows p.levels V) u₀).1.best
  | 0, _, _, _, hdone => by cases hdone
  | fuel + 1, run, w, hs, hdone => by
    have hb : runBudget cfg run = ⟨0, cfg.restart.map fun r => r.cutoff run⟩ := by
      rw [runBudget, hlimit]
    rcases Plan.run_settled hread hconst hstable (cfg.restart.map fun r => r.cutoff run) hok hs with
      ⟨hc, hbest⟩ | ⟨hr, hs'⟩
    · rw [Plan.runUntilDone_of_completed (hb ▸ hc), hb]
      exact hbest
    · rw [Plan.runUntilDone_of_restart (hb ▸ hr), hb] at hdone ⊢
      exact Plan.runUntilDone_best hread hconst hstable hlimit hok fuel (run + 1) _ hs' hdone

/-- Without restarts and without a failure limit, the first run completes. -/
theorem Plan.runUntilDone_unbounded (hread : ReadsAbove rows p.levels) (goal : Goal)
    {cfg : SearchConfig} (hlimit : cfg.failureLimit = 0) (hnone : cfg.restart = none)
    (fuel run : Nat) (w : Walk α) :
    p.runUntilDone rows goal cfg (fuel + 1) run w = ((p.run rows goal unbounded w).1, true) := by
  have hb : runBudget cfg run = unbounded := by rw [runBudget, hlimit, hnone, Option.map_none]
  rw [Plan.runUntilDone_of_completed (hb ▸ Plan.run_unbounded hread goal w), hb]

/-- Runs whose rows without terms fail: the first completes and keeps the best assignment. -/
theorem Plan.runUntilDone_of_rowsHold_false (goal : Goal) (cfg : SearchConfig) (fuel run : Nat)
    (w : Walk α) (hfail : rowsHold rows p.constantRows w.values = false) :
    (p.runUntilDone rows goal cfg (fuel + 1) run w).1.best = w.best ∧
      (p.runUntilDone rows goal cfg (fuel + 1) run w).2 = true := by
  obtain ⟨hb, hc⟩ := Plan.run_of_rowsHold_false goal (runBudget cfg run) w hfail
  rw [Plan.runUntilDone_of_completed hc]
  exact ⟨hb, rfl⟩

/-- Runs with a restart policy that end with a complete run keep the best assignment of the runs
without restarts, which complete. -/
theorem Plan.runUntilDone_restart (hread : ReadsAbove rows p.levels)
    (hconst : ∀ i ∈ p.constantRows, ∀ r, rows[i]? = some r → r.terms = [])
    (hstable : StablePrefixes α goal) {cfg : SearchConfig} (hlimit : cfg.failureLimit = 0)
    (policy : RestartPolicy) (fuel fuel' run : Nat) (w : Walk α)
    (hdone : (p.runUntilDone rows goal { cfg with restart := some policy } fuel run w).2 = true) :
    (p.runUntilDone rows goal { cfg with restart := some policy } fuel run w).1.best =
        (p.runUntilDone rows goal { cfg with restart := none } (fuel' + 1) run w).1.best ∧
      (p.runUntilDone rows goal { cfg with restart := none } (fuel' + 1) run w).2 = true := by
  cases hok : rowsHold rows p.constantRows w.values with
  | false =>
    cases fuel with
    | zero => cases hdone
    | succ fuel =>
      obtain ⟨hb, -⟩ := Plan.runUntilDone_of_rowsHold_false goal _ fuel run w hok
      obtain ⟨hb', hc'⟩ := Plan.runUntilDone_of_rowsHold_false goal _ fuel' run w hok
      exact ⟨hb.trans hb'.symm, hc'⟩
  | true =>
    -- both loops start settled: nothing replayed yet
    have hs : Settled goal (columnsOf p.levels) w.values (events rows p.levels w.values)
        { w with runFailures := 0 } w :=
      ⟨AgreeOff.refl _ _, [], List.nil_prefix, rfl, rfl⟩
    have hlimit' : ({ cfg with restart := none } : SearchConfig).failureLimit = 0 := hlimit
    have hlimitp : ({ cfg with restart := some policy } : SearchConfig).failureLimit = 0 := hlimit
    have hnone := Plan.runUntilDone_unbounded hread goal hlimit' rfl fuel' run w
    have hnone_done : (p.runUntilDone rows goal { cfg with restart := none } (fuel' + 1) run w).2 =
        true := by rw [hnone]
    refine ⟨?_, hnone_done⟩
    rw [Plan.runUntilDone_best hread hconst hstable hlimitp hok fuel run w hs hdone,
      Plan.runUntilDone_best hread hconst hstable hlimit' hok (fuel' + 1) run w hs hnone_done]

end Runs

end Search

namespace FlatModel

open Search

variable {α : Type} [Scalar α]

/-- What the search of a model looks for: a best assignment for its objective, else a first
solution. -/
def searchGoal (m : FlatModel α) : Goal :=
  match m.objective with
  | some o => .optimise o.sense o.column
  | none => .first

/-- Whether the runs of the search end with a complete one within the runs counted: with no
failure limit, the only way the search of a model ends, when planning gives a plan. -/
def runsComplete (m : FlatModel α) (cfg : SearchConfig) : Bool :=
  match Plan.ofModel m cfg with
  | .ok (some p) => (p.runUntilDone m.rows m.searchGoal cfg maxRuns 0 m.startWalk).2
  | _ => true

/-- The solution of a model read off the last walk of its runs. -/
def report (m : FlatModel α) (w : Walk α) (completed : Bool) : Except OutOfRange (Solution α) :=
  match w.best with
  | some values => do
    if let some o := m.objective then
      if m.columns.size ≤ o.column then throw ⟨m.columns.size, o.column⟩
    pure { status := .sat, values, objectiveValue := m.objectiveValue values, stats := w.stats }
  | none => pure { status := if completed then .unsat else .unknown, stats := w.stats }

theorem solve_of_plan {m : FlatModel α} {cfg : SearchConfig} {p : Plan α}
    (hp : Plan.ofModel m cfg = .ok (some p)) :
    m.solve cfg = m.report (p.runUntilDone m.rows m.searchGoal cfg maxRuns 0 m.startWalk).1
      (p.runUntilDone m.rows m.searchGoal cfg maxRuns 0 m.startWalk).2 := by
  simp only [solve, hp]
  rfl

theorem stablePrefixes_searchGoal (hirr : ∀ a : α, ¬a < a)
    (htrans : ∀ a b c : α, a < b → b < c → a < c) (m : FlatModel α) :
    StablePrefixes α m.searchGoal := by
  rcases hobj : m.objective with _ | o
  · simp only [searchGoal, hobj]
    exact stablePrefixes_first
  · simp only [searchGoal, hobj]
    exact stablePrefixes_optimise hirr htrans o.sense o.column

end FlatModel

/-- The answer of a solution: its status, values and objective value, without the counters. -/
def Solution.answer {α : Type} (s : Solution α) : Status × Array α × Option α :=
  (s.status, s.values, s.objectiveValue)

namespace FlatModel

open Search

variable {α : Type} [Scalar α]

omit [Scalar α] in
/-- The answer reported depends on the best assignment kept and on completion only. -/
theorem report_answer (m : FlatModel α) {w w' : Walk α} (h : w.best = w'.best) (c : Bool) :
    (m.report w c).map Solution.answer = (m.report w' c).map Solution.answer := by
  unfold report
  rw [h]
  cases w'.best with
  | none => rfl
  | some values =>
    cases m.objective with
    | none => rfl
    | some o =>
      simp only
      split_ifs <;> rfl

/-- Restarts do not change the answer: with no failure limit, a search with a restart policy
whose runs end with a complete one reports the status, values and objective value of the search
without restarts. -/
theorem solve_restart_answer (hirr : ∀ a : α, ¬a < a)
    (htrans : ∀ a b c : α, a < b → b < c → a < c) (m : FlatModel α) (cfg : SearchConfig)
    (policy : RestartPolicy) (hlimit : cfg.failureLimit = 0)
    (hdone : m.runsComplete { cfg with restart := some policy } = true) :
    (m.solve { cfg with restart := some policy }).map Solution.answer =
      (m.solve { cfg with restart := none }).map Solution.answer := by
  -- planning does not read the restart policy
  have hplan : ∀ r, Plan.ofModel m { cfg with restart := r } = Plan.ofModel m cfg := fun _ => rfl
  cases hp : Plan.ofModel m cfg with
  | error e => simp only [solve, hplan, hp]; rfl
  | ok res =>
    cases res with
    | none => simp only [solve, hplan, hp]; rfl
    | some p =>
      have hp' : ∀ r, Plan.ofModel m { cfg with restart := r } = .ok (some p) := fun r =>
        (hplan r).trans hp
      have hdone' := hdone
      simp only [runsComplete, hp'] at hdone'
      obtain ⟨hbest, hcomplete⟩ := Plan.runUntilDone_restart (Plan.readsAbove_of_ofModel hp)
        (Plan.constant_of_ofModel hp) (stablePrefixes_searchGoal hirr htrans m) hlimit policy
        maxRuns (maxRuns - 1) 0 m.startWalk hdone'
      have hmax : maxRuns - 1 + 1 = maxRuns := rfl
      rw [hmax] at hbest hcomplete
      rw [solve_of_plan (hp' _), solve_of_plan (hp' _), hdone', hcomplete]
      exact report_answer m hbest true

end FlatModel

namespace FlatModel

/-- Maximise `y` over the integers `x ∈ [0, 1]`, `y ∈ [0, 3]` with `y ≤ 3x`. The search meets
`(0, 0)` first, then fails on `y = 1, 2, 3` before it reaches `x = 1`: under the Luby cutoffs
`2, 2, 4` two runs restart keeping `(0, 0)`, and the third completes with `(1, 3)`. -/
def restartModel : FlatModel ERat where
  columns := #[⟨"x", .integer, .fin 0, .fin 1, none⟩, ⟨"y", .integer, .fin 0, .fin 3, none⟩]
  rows := #[⟨[(1, .fin 1), (0, .fin (-3))], .negInf, .fin 0⟩]
  objective := some ⟨.maximise, 1⟩

/-- Restarts keep the answer of the model above under the Luby policy of base `2`. -/
theorem restartModel_luby_answer :
    (∀ a : ERat, ¬a < a) ∧ (∀ a b c : ERat, a < b → b < c → a < c) ∧
      ({} : SearchConfig).failureLimit = 0 ∧
      restartModel.runsComplete { ({} : SearchConfig) with restart := some (.luby 2) } = true ∧
      (restartModel.solve { ({} : SearchConfig) with restart := some (.luby 2) }).map
          Solution.answer =
        (restartModel.solve { ({} : SearchConfig) with restart := none }).map Solution.answer := by
  have hdone : restartModel.runsComplete
      { ({} : SearchConfig) with restart := some (.luby 2) } = true := by decide +kernel
  exact ⟨ERat.lt_irrefl, ERat.lt_trans, rfl, hdone,
    solve_restart_answer ERat.lt_irrefl ERat.lt_trans restartModel {} (.luby 2) rfl hdone⟩

end FlatModel

end MipLowering
