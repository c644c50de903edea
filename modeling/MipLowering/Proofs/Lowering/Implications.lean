import MipLowering.Proofs.Lowering.Fragments

/-!
# Guarded implications in closed form

`implyLe` and `implyGe` post `guards ⇒ expr ≤ β` and `guards ⇒ expr ≥ β` as one big-M row, the
big-M read off the activity bounds of `expr` over the current column bounds. This module gives
both calls in closed form: each fails exactly when the activity bound it reads is `+∞` (for
`implyLe`; `-∞` for `implyGe`), and otherwise posts one row that is the implication at every
assignment within the column bounds whose guards are binary.

Only one infinity makes the call fail. The big-M is `max(gap, 0)`, and a gap of `-∞` or NaN
gives the finite big-M `0`: over a column pinned at `-∞` the activity upper bound is `-∞`, and
`implyLe` posts its row (`negInfBuilder_implyLe_posts`).

## Main results

* `Lowering.implyLe_run`, `Lowering.implyGe_run` — the two calls in closed form.
* `Lowering.guardedImplications_exact` — the activity bounds enclose the activity, and each
  call fails or posts its implication.
-/

namespace MipLowering

open ERat

namespace ERat

/-- The big-M of `implyLe` is finite unless the activity upper bound is `+∞`. -/
theorem isFinite_bigM_upper_iff (hi : ERat) (β : Rat) :
    Scalar.isFinite (Scalar.max (hi - fin β) Scalar.zero) = true ↔ hi ≠ posInf := by
  cases hi with
  | fin q =>
    rw [fin_sub_fin, zero_eq_fin, max_fin]
    exact iff_of_true rfl (by simp)
  | posInf => exact iff_of_false Bool.false_ne_true (by simp)
  | nan => exact iff_of_true rfl (by simp)
  | negInf => exact iff_of_true rfl (by simp)

/-- The big-M of `implyGe` is finite unless the activity lower bound is `-∞`. -/
theorem isFinite_bigM_lower_iff (lo : ERat) (β : Rat) :
    Scalar.isFinite (Scalar.max (fin β - lo) Scalar.zero) = true ↔ lo ≠ negInf := by
  cases lo with
  | fin q =>
    rw [fin_sub_fin, zero_eq_fin, max_fin]
    exact iff_of_true rfl (by simp)
  | negInf => exact iff_of_false Bool.false_ne_true (by simp)
  | nan => exact iff_of_true rfl (by simp)
  | posInf => exact iff_of_true rfl (by simp)

end ERat

/-- The activity bounds of a row enclose its activity at every assignment within the bounds of
its columns. -/
theorem Row.activityBounds_enclose {r : Row ERat} {cols : Array (Column ERat)} {W : Array ERat}
    (hnz : r.NonzeroCoefs) (hW : r.Within cols W) :
    (r.activityBounds cols).1 ≤ r.activity W ∧ r.activity W ≤ (r.activityBounds cols).2 := by
  rw [Row.activity_eq_value hnz.finiteCoefs hW.finiteAt]
  exact Row.activityBounds_brackets hnz hW

namespace Lowering

section Implications

variable (id : Nat) (expr : Row ERat) (β : Rat) (gs : List Lit) (b : Builder ERat)

/-- `implyLe` fails exactly over an activity upper bound of `+∞`, and otherwise posts its
guarded row. -/
theorem implyLe_run :
    (implyLe id expr (.fin β) gs).run b =
      if (expr.activityBounds b.model.columns).2 = .posInf then .error (.unboundedBigM id) b
      else .ok () { b with model := b.model.addRow (guardedLe
        (Scalar.max ((expr.activityBounds b.model.columns).2 - .fin β) Scalar.zero)
          expr (.fin β) gs) } := by
  have hrun : (implyLe id expr (.fin β) gs).run b =
      (bigM id ((expr.activityBounds b.model.columns).2 - .fin β) >>= fun m =>
        post (guardedLe m expr (.fin β) gs)).run b := rfl
  rw [hrun, run_bind, bigM_run]
  by_cases hinf : (expr.activityBounds b.model.columns).2 = .posInf
  · have hM := mt (isFinite_bigM_upper_iff _ β).1 (not_not.2 hinf)
    rw [if_pos hinf, if_neg hM]
  · rw [if_neg hinf, if_pos ((isFinite_bigM_upper_iff _ β).2 hinf)]
    rfl

/-- `implyGe` fails exactly over an activity lower bound of `-∞`, and otherwise posts its
guarded row. -/
theorem implyGe_run :
    (implyGe id expr (.fin β) gs).run b =
      if (expr.activityBounds b.model.columns).1 = .negInf then .error (.unboundedBigM id) b
      else .ok () { b with model := b.model.addRow (guardedGe
        (Scalar.max (.fin β - (expr.activityBounds b.model.columns).1) Scalar.zero)
          expr (.fin β) gs) } := by
  have hrun : (implyGe id expr (.fin β) gs).run b =
      (bigM id (.fin β - (expr.activityBounds b.model.columns).1) >>= fun m =>
        post (guardedGe m expr (.fin β) gs)).run b := rfl
  rw [hrun, run_bind, bigM_run]
  by_cases hinf : (expr.activityBounds b.model.columns).1 = .negInf
  · have hM := mt (isFinite_bigM_lower_iff _ β).1 (not_not.2 hinf)
    rw [if_pos hinf, if_neg hM]
  · rw [if_neg hinf, if_pos ((isFinite_bigM_lower_iff _ β).2 hinf)]
    rfl

theorem implyLe_fails_iff :
    (implyLe id expr (.fin β) gs).run b = .error (.unboundedBigM id) b ↔
      (expr.activityBounds b.model.columns).2 = .posInf := by
  rw [implyLe_run]
  split_ifs with hinf
  · exact iff_of_true rfl hinf
  · exact iff_of_false (by simp) hinf

theorem implyGe_fails_iff :
    (implyGe id expr (.fin β) gs).run b = .error (.unboundedBigM id) b ↔
      (expr.activityBounds b.model.columns).1 = .negInf := by
  rw [implyGe_run]
  split_ifs with hinf
  · exact iff_of_true rfl hinf
  · exact iff_of_false (by simp) hinf

variable {expr}

/-- Below an activity upper bound other than `+∞`, `implyLe` posts one row, which at every
assignment within the column bounds, with binary guards, holds exactly when the guards imply
`expr ≤ β`. -/
theorem implyLe_posts (hnz : expr.NonzeroCoefs)
    (hfin : (expr.activityBounds b.model.columns).2 ≠ .posInf) :
    ∃ R, (implyLe id expr (.fin β) gs).run b = .ok () { b with model := b.model.addRow R } ∧
      ∀ W, expr.Within b.model.columns W → (∀ l ∈ gs, l.Binary W) →
        (R.Admits W ↔ ((∀ l ∈ gs, l.value W = 1) → expr.value W ≤ β)) := by
  refine ⟨_, by rw [implyLe_run, if_neg hfin], fun W hW hgs => ?_⟩
  -- the bound brackets the value, so the big-M covers the value's range above `β`
  obtain ⟨-, hhi⟩ := Row.activityBounds_brackets hnz hW
  obtain ⟨h, ht, hM⟩ := bigM_of_upper hhi ((isFinite_bigM_upper_iff _ β).2 hfin)
  rw [hM]
  exact guardedLe_admits_iff hnz.finiteCoefs hW.finiteAt hgs ht

/-- Above an activity lower bound other than `-∞`, `implyGe` posts one row, which at every
assignment within the column bounds, with binary guards, holds exactly when the guards imply
`expr ≥ β`. -/
theorem implyGe_posts (hnz : expr.NonzeroCoefs)
    (hfin : (expr.activityBounds b.model.columns).1 ≠ .negInf) :
    ∃ R, (implyGe id expr (.fin β) gs).run b = .ok () { b with model := b.model.addRow R } ∧
      ∀ W, expr.Within b.model.columns W → (∀ l ∈ gs, l.Binary W) →
        (R.Admits W ↔ ((∀ l ∈ gs, l.value W = 1) → β ≤ expr.value W)) := by
  refine ⟨_, by rw [implyGe_run, if_neg hfin], fun W hW hgs => ?_⟩
  obtain ⟨hlo, -⟩ := Row.activityBounds_brackets hnz hW
  obtain ⟨l, ht, hM⟩ := bigM_of_lower hlo ((isFinite_bigM_lower_iff _ β).2 hfin)
  rw [hM]
  exact guardedGe_admits_iff hnz.finiteCoefs hW.finiteAt hgs ht

/-- Guarded implications are exact. For a fragment with finite non-zero coefficients and a
finite bound, the activity bounds over the current columns enclose its activity at every
assignment within them; `implyLe` fails with `unboundedBigM` exactly when the upper bound is
`+∞`, and otherwise posts one row that, at every such assignment with binary guards, holds iff
all guards true imply `expr ≤ β`; `implyGe` likewise with the lower bound, `-∞` and `expr ≥ β`. -/
theorem guardedImplications_exact (hnz : expr.NonzeroCoefs) :
    (∀ W, expr.Within b.model.columns W →
      (expr.activityBounds b.model.columns).1 ≤ expr.activity W ∧
        expr.activity W ≤ (expr.activityBounds b.model.columns).2) ∧
    ((implyLe id expr (.fin β) gs).run b = .error (.unboundedBigM id) b ↔
      (expr.activityBounds b.model.columns).2 = .posInf) ∧
    ((expr.activityBounds b.model.columns).2 ≠ .posInf → ∃ R,
      (implyLe id expr (.fin β) gs).run b = .ok () { b with model := b.model.addRow R } ∧
      ∀ W, expr.Within b.model.columns W → (∀ l ∈ gs, l.Binary W) →
        (R.Admits W ↔ ((∀ l ∈ gs, l.value W = 1) → expr.value W ≤ β))) ∧
    ((implyGe id expr (.fin β) gs).run b = .error (.unboundedBigM id) b ↔
      (expr.activityBounds b.model.columns).1 = .negInf) ∧
    ((expr.activityBounds b.model.columns).1 ≠ .negInf → ∃ R,
      (implyGe id expr (.fin β) gs).run b = .ok () { b with model := b.model.addRow R } ∧
      ∀ W, expr.Within b.model.columns W → (∀ l ∈ gs, l.Binary W) →
        (R.Admits W ↔ ((∀ l ∈ gs, l.value W = 1) → β ≤ expr.value W))) :=
  ⟨fun _ hW => Row.activityBounds_enclose hnz hW, implyLe_fails_iff id expr β gs b,
    implyLe_posts id β gs b hnz, implyGe_fails_iff id expr β gs b, implyGe_posts id β gs b hnz⟩

/-- `x ∈ [0, 3]` against `2` under the positive guard of a second column: neither call fails,
and each posts its implication. -/
theorem rangeFragment_guardedImplications_exact :
    rangeFragment.NonzeroCoefs ∧
    (∀ W, rangeFragment.Within rangeBuilder.model.columns W →
      (rangeFragment.activityBounds rangeBuilder.model.columns).1 ≤ rangeFragment.activity W ∧
        rangeFragment.activity W ≤ (rangeFragment.activityBounds rangeBuilder.model.columns).2) ∧
    ((implyLe 1 rangeFragment (.fin 2) [⟨1, true⟩]).run rangeBuilder =
        .error (.unboundedBigM 1) rangeBuilder ↔
      (rangeFragment.activityBounds rangeBuilder.model.columns).2 = .posInf) ∧
    ((rangeFragment.activityBounds rangeBuilder.model.columns).2 ≠ .posInf → ∃ R,
      (implyLe 1 rangeFragment (.fin 2) [⟨1, true⟩]).run rangeBuilder =
        .ok () { rangeBuilder with model := rangeBuilder.model.addRow R } ∧
      ∀ W, rangeFragment.Within rangeBuilder.model.columns W →
        (∀ l ∈ [⟨1, true⟩], Lit.Binary W l) →
        (R.Admits W ↔ ((∀ l ∈ [⟨1, true⟩], Lit.value W l = 1) → rangeFragment.value W ≤ 2))) ∧
    ((implyGe 1 rangeFragment (.fin 2) [⟨1, true⟩]).run rangeBuilder =
        .error (.unboundedBigM 1) rangeBuilder ↔
      (rangeFragment.activityBounds rangeBuilder.model.columns).1 = .negInf) ∧
    ((rangeFragment.activityBounds rangeBuilder.model.columns).1 ≠ .negInf → ∃ R,
      (implyGe 1 rangeFragment (.fin 2) [⟨1, true⟩]).run rangeBuilder =
        .ok () { rangeBuilder with model := rangeBuilder.model.addRow R } ∧
      ∀ W, rangeFragment.Within rangeBuilder.model.columns W →
        (∀ l ∈ [⟨1, true⟩], Lit.Binary W l) →
        (R.Admits W ↔ ((∀ l ∈ [⟨1, true⟩], Lit.value W l = 1) → 2 ≤ rangeFragment.value W))) :=
  ⟨rangeFragment_nonzeroCoefs,
    guardedImplications_exact 1 2 [⟨1, true⟩] rangeBuilder rangeFragment_nonzeroCoefs⟩

end Implications

/-- One continuous column pinned at `-∞`, as `floatVar -∞ -∞` creates it. -/
def negInfBuilder : Builder ERat :=
  { Builder.new with model := { columns := #[⟨"x0", .continuous, .negInf, .negInf, none⟩] } }

/-- Over a column pinned at `-∞` the activity upper bound of `x` is `-∞`, which is not finite,
yet `implyLe` does not fail: its big-M is `max(-∞ - 2, 0) = 0`. -/
theorem negInfBuilder_implyLe_posts :
    (rangeFragment.activityBounds negInfBuilder.model.columns).2 = .negInf ∧
      Scalar.isFinite (rangeFragment.activityBounds negInfBuilder.model.columns).2 = false ∧
      ∃ b', (implyLe 1 rangeFragment (.fin 2) [⟨1, true⟩]).run negInfBuilder = .ok () b' := by
  have hhi : (rangeFragment.activityBounds negInfBuilder.model.columns).2 = .negInf := by
    with_unfolding_all rfl
  refine ⟨hhi, by rw [hhi]; rfl, ?_⟩
  rw [implyLe_run, if_neg (by rw [hhi]; simp)]
  exact ⟨_, rfl⟩

end Lowering

end MipLowering
