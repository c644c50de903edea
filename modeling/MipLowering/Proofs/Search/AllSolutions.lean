import MipLowering.Proofs.Search.Plan

/-!
# Every solution of an enumerable model

A run of a plan fit for the model, started from the empty walk, checks the rows without terms
and then descends; what it collects is a prefix of the plan's answer (`Search.Plan.answer`), all
of it when no failure limit or cutoff interrupts it. The answer lists each assignment of
candidates that satisfies every row, and each once when no candidate list has repeats: cutting a
branch at a level is sieving the complete choices, the choices are the assignments of
candidates, and every row is checked at some level or before the descent.

So `FlatModel.allSolutions` of a searchable model whose columns can all be enumerated lists,
without a failure limit, exactly the assignments of candidates that satisfy the rows, whatever
the heuristics; with a failure limit it lists a prefix of that. A model with a column that
cannot be enumerated has no solutions listed.

## Main definitions

* `MipLowering.FlatModel.IsCandidate` — one value per column, each among its candidates.
* `MipLowering.Search.Plan.answer` — what an uninterrupted run of a plan collects.

## Main results

* `MipLowering.Search.Plan.run_found` — a run collects a prefix of the answer, all of it when
  uninterrupted.
* `MipLowering.Search.Plan.mem_answer` — the answer is the candidate assignments satisfying the
  rows.
* `MipLowering.FlatModel.allSolutions_answer`, `MipLowering.FlatModel.allSolutions_of_none`.
-/

namespace MipLowering

open Search

variable {α : Type} [Scalar α]

/-- An assignment of candidates: one value per column, each among its column's candidates. -/
def FlatModel.IsCandidate (m : FlatModel α) (v : Array α) : Prop :=
  v.size = m.columns.size ∧ ∀ (i : Nat) (c : Column α), m.columns[i]? = some c →
    ∃ d, candidates c = some d ∧ ∃ x ∈ d, v[i]? = some x

namespace Search

variable {m : FlatModel α} {p : Plan α}

/-- What a run of a plan collects from the empty walk when nothing interrupts it: the
assignments the descent reaches, if the rows without terms hold. -/
def Plan.answer (p : Plan α) (m : FlatModel α) : List (Array α) :=
  if rowsHold m.rows p.constantRows m.startWalk.values then
    reached m.rows p.levels m.startWalk.values
  else []

@[simp] theorem size_startWalk_values : m.startWalk.values.size = m.columns.size := by
  simp [FlatModel.startWalk]

/-- A run collects a prefix of the answer, and all of it when no failure limit or cutoff can
interrupt it. -/
theorem Plan.run_found (hp : p.Fits m) (budget : Budget) :
    (p.run m.rows .all budget m.startWalk).1.found.toList <+: p.answer m ∧
    ((∀ w : Walk α, budget.exhausted w = none) →
      (p.run m.rows .all budget m.startWalk).1.found.toList = p.answer m) := by
  obtain ⟨c, hc⟩ := checkRows_eq m.rows { m.startWalk with runFailures := 0 } p.constantRows
  unfold Plan.run Plan.answer
  dsimp only at hc ⊢
  rw [hc]
  dsimp only
  split
  · -- the rows without terms hold: the descent starts with nothing found
    let w₁ : Walk α := { m.startWalk with runFailures := 0, stats.checks := c }
    obtain ⟨F, hF, hpre, hall⟩ : Collects (descend m.rows .all budget p.levels w₁) w₁
        (reached m.rows p.levels w₁.values) := (descend_collects hp.filed w₁).1
    have hF' : (descend m.rows .all budget p.levels w₁).1.found.toList = F := by
      simpa [w₁, FlatModel.startWalk] using hF
    refine ⟨hF' ▸ hpre, fun hb => ?_⟩
    rw [hF']
    exact hall (descend_all_uninterrupted hb p.levels w₁)
  · exact ⟨by simp [FlatModel.startWalk], fun _ => by simp [FlatModel.startWalk]⟩

/-! ### The answer is the solutions -/

/-- The columns of a fit plan have values in the empty walk. -/
theorem Plan.Fits.lt_start (hp : p.Fits m) :
    ∀ c ∈ columnsOf p.levels, c < m.startWalk.values.size :=
  fun c hc => by simpa using (hp.mem_columnsOf c).1 hc

/-- An array agrees with the empty walk off the plan's columns exactly when it has one value per
column. -/
theorem agreeOff_startWalk_iff (hp : p.Fits m) {v : Array α} :
    AgreeOff (columnsOf p.levels) v m.startWalk.values ↔ v.size = m.columns.size := by
  constructor
  · intro h
    simpa using h.size_eq
  · intro h
    refine ⟨by simp [h], fun c hc => ?_⟩
    have hge : m.columns.size ≤ c := Nat.not_lt.1 fun hlt => hc ((hp.mem_columnsOf c).2 hlt)
    rw [Array.getElem?_eq_none (by omega), Array.getElem?_eq_none (by simpa using hge)]

/-- A candidate at the column of each level is a candidate at every column. -/
theorem levels_candidates_iff (hp : p.Fits m) {v : Array α} :
    (∀ lv ∈ p.levels, ∃ x ∈ lv.candidates, v[lv.column]? = some x) ↔
      ∀ (i : Nat) (c : Column α), m.columns[i]? = some c →
        ∃ d, candidates c = some d ∧ ∃ x ∈ d, v[i]? = some x := by
  constructor
  · intro h i c hc
    have hi : i < m.columns.size := (Array.getElem?_eq_some_iff.1 hc).1
    obtain ⟨lv, hlv, rfl⟩ := List.mem_map.1 ((hp.mem_columnsOf i).2 hi)
    obtain ⟨c', d, hc', hd, hperm⟩ := hp.candidates_perm lv hlv
    rw [hc, Option.some.injEq] at hc'
    subst hc'
    obtain ⟨x, hx, hvx⟩ := h lv hlv
    exact ⟨d, hd, x, hperm.mem_iff.1 hx, hvx⟩
  · intro h lv hlv
    obtain ⟨c, d, hc, hd, hperm⟩ := hp.candidates_perm lv hlv
    obtain ⟨d', hd', x, hx, hvx⟩ := h lv.column c hc
    rw [hd, Option.some.injEq] at hd'
    subst hd'
    exact ⟨x, hperm.mem_iff.2 hx, hvx⟩

/-- The rows checked before the descent read no column. -/
theorem rowsHold_constant (hp : p.Fits m) (V V' : Array α) :
    rowsHold m.rows p.constantRows V = rowsHold m.rows p.constantRows V' := by
  rw [Bool.eq_iff_iff, rowsHold_iff, rowsHold_iff]
  refine forall₂_congr fun i hi => forall_congr' fun r => imp_congr_right fun hr => ?_
  have hterms : ∀ t ∈ r.terms, V[t.1]? = V'[t.1]? := by
    rw [hp.constant i hi r hr]
    exact fun t ht => absurd ht List.not_mem_nil
  rw [Row.isSatisfied_congr hterms tolerance]

/-- The rows checked before the descent and at the levels are all the rows. -/
theorem rowsHold_plan_iff (hp : p.Fits m) (v : Array α) :
    (rowsHold m.rows p.constantRows v = true ∧ ∀ lv ∈ p.levels, rowsHold m.rows lv.rows v = true) ↔
      ∀ r ∈ m.rows, r.isSatisfied v tolerance = true := by
  simp only [rowsHold_iff]
  constructor
  · rintro ⟨hconst, hlevels⟩ r hr
    obtain ⟨i, hi, rfl⟩ := Array.mem_iff_getElem.1 hr
    rcases hp.covers i hi with hc | ⟨lv, hlv, hin⟩
    · exact hconst i hc _ (Array.getElem?_eq_getElem hi)
    · exact hlevels lv hlv i hin _ (Array.getElem?_eq_getElem hi)
  · intro h
    have hrow : ∀ (i : Nat) (r : Row α), m.rows[i]? = some r → r.isSatisfied v tolerance = true :=
      fun i r hr => h r (Array.mem_of_getElem? hr)
    exact ⟨fun i _ => hrow i, fun _ _ i _ => hrow i⟩

/-- The answer of a plan fit for the model lists the assignments of candidates that satisfy
every row. -/
theorem Plan.mem_answer (hp : p.Fits m) {v : Array α} :
    v ∈ p.answer m ↔ m.IsCandidate v ∧ ∀ r ∈ m.rows, r.isSatisfied v tolerance = true := by
  -- a choice of the levels is an assignment of candidates
  have hchoice : v ∈ choices p.levels m.startWalk.values ↔ m.IsCandidate v := by
    rw [mem_choices hp.nodup hp.lt_start, agreeOff_startWalk_iff hp, levels_candidates_iff hp]
    rfl
  unfold Plan.answer
  rw [reached_eq_filter hp.filed]
  split
  · next hconst =>
    rw [List.mem_filter, hchoice, List.all_eq_true]
    constructor
    · rintro ⟨hcand, hlevels⟩
      refine ⟨hcand, (rowsHold_plan_iff hp v).1 ⟨?_, hlevels⟩⟩
      rw [rowsHold_constant hp v m.startWalk.values]
      exact hconst
    · rintro ⟨hcand, hrows⟩
      exact ⟨hcand, ((rowsHold_plan_iff hp v).2 hrows).2⟩
  · next hconst =>
    -- a row without terms fails, at every assignment
    simp only [List.not_mem_nil, false_iff, not_and]
    intro _ hrows
    apply hconst
    rw [rowsHold_constant hp m.startWalk.values v]
    exact ((rowsHold_plan_iff hp v).2 hrows).1

/-- The answer lists each assignment once when no candidate list has repeats. -/
theorem Plan.nodup_answer (hp : p.Fits m)
    (hd : ∀ c ∈ m.columns, ∀ d, candidates c = some d → d.Nodup) : (p.answer m).Nodup := by
  unfold Plan.answer
  split
  · rw [reached_eq_filter hp.filed]
    refine (nodup_choices hp.nodup hp.lt_start fun lv hlv => ?_).filter _
    obtain ⟨c, d, hc, hdc, hperm⟩ := hp.candidates_perm lv hlv
    exact hperm.nodup_iff.2 (hd c (Array.mem_of_getElem? hc) d hdc)
  · exact List.nodup_nil

end Search

namespace FlatModel

variable {m : FlatModel α}

/-- A model with a column that cannot be enumerated has no solutions listed. -/
theorem allSolutions_of_none (h : ∃ c ∈ m.columns, candidates c = none) (cfg : SearchConfig) :
    m.allSolutions cfg = .ok [] := by
  simp only [allSolutions, Plan.ofModel_of_none h cfg]
  rfl

/-- The solutions listed for a searchable model whose columns can all be enumerated: without a
failure limit, the answer of a plan fit for the model; with one, a prefix of it. -/
theorem allSolutions_answer (hm : m.Searchable) (hdoms : ∀ c ∈ m.columns, (candidates c).isSome)
    (cfg : SearchConfig) :
    ∃ p : Plan α, p.Fits m ∧ m.allSolutions { cfg with failureLimit := 0 } = .ok (p.answer m) ∧
      ∃ F, m.allSolutions cfg = .ok F ∧ F <+: p.answer m := by
  obtain ⟨p, hplan, hp⟩ := Plan.ofModel_fits hm hdoms cfg
  -- planning does not read the failure limit
  have hplan₀ : Plan.ofModel m { cfg with failureLimit := 0 } = .ok (some p) := hplan
  have hnever : ∀ w : Walk α, Budget.exhausted ⟨0, none⟩ w = none :=
    fun w => by simp [Budget.exhausted]
  refine ⟨p, hp, ?_, _, ?_, (p.run_found hp ⟨cfg.failureLimit, none⟩).1⟩
  · simp only [allSolutions, hplan₀]
    exact congrArg Except.ok ((p.run_found hp _).2 hnever)
  · simp only [allSolutions, hplan]
    rfl

end FlatModel

end MipLowering
