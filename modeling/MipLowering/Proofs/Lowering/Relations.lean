import MipLowering.Proofs.Lowering.ExactRows
import MipLowering.Proofs.Lowering.Undo

/-!
# Relations are lowered exactly, up to the separation gap

A relation `lhs rel rhs` is lowered from its fragment `Σ cᵢ · vᵢ rel r` (`Lowering.difference`):
at top level as rows, nested as a binary indicator `z` bound to the fragment by big-M rows. Read
with exact arithmetic, for a fragment with finite non-zero coefficients and a finite right-hand
side, and for any assignment of the fragment's columns within their bounds with fragment value
`t`:

* at top level the rows hold, for some value of the side binary of `≠`, exactly when `t = r`,
  `t ≤ r`, `t ≥ r`, `t ≤ r - sep`, `t ≥ r + sep`, or `t ≤ r - sep ∨ t ≥ r + sep`: the relation
  holding with `t` outside its gap (`Rel.strict_iff`);
* nested, they hold, for some value of the side binary of `=` and `≠`, exactly when `t` lies
  outside the gap and `z = 1` is the truth of `t rel r`.

The gap is the interval that the separation `sep` (`1` for an integral fragment with integral
separation on, else `epsilon`) keeps out: `(r, r + sep)` for `≤` and `>`, `(r - sep, r)` for `<`
and `≥`, both for `=` and `≠`. A precedence pair is lowered as the relation `≤` on its fragment.

The right-hand side must be finite: the offset of a sum is not validated, and a NaN one gives a
NaN big-M bound under which no value of the indicator is left (`nanFragment_le_admits_none`).

## Main definitions

* `MipLowering.Rel.Holds`, `MipLowering.Rel.InGap`, `MipLowering.Rel.Strict`.
* `MipLowering.Lowering.AddedRowsAdmit` — the rows a lowering added hold exactly.
* `MipLowering.Lowering.separationOf` — the separation read with rationals.

## Main results

* `MipLowering.Lowering.implyLe_spec`, `MipLowering.Lowering.implyGe_spec` — one big-M row is
  one implication.
* `MipLowering.Lowering.encodeRel_top_spec`, `MipLowering.Lowering.encodeRel_nested_spec`.
* `MipLowering.Lowering.encodeRel_exact` — relations are lowered exactly up to the gap.
-/

namespace MipLowering

open ERat

/-! ### The truth of a relation and its gap -/

namespace Rel

/-- The truth of `t rel r`. -/
def Holds : Rel → Rat → Rat → Prop
  | .eq, t, r => t = r
  | .ne, t, r => t ≠ r
  | .le, t, r => t ≤ r
  | .ge, t, r => r ≤ t
  | .lt, t, r => t < r
  | .gt, t, r => r < t

/-- The gap of a relation: the values that the separation `s` keeps out of both sides. -/
def InGap : Rel → Rat → Rat → Rat → Prop
  | .le, t, r, s | .gt, t, r, s => r < t ∧ t < r + s
  | .lt, t, r, s | .ge, t, r, s => r - s < t ∧ t < r
  | .eq, t, r, s | .ne, t, r, s => (r - s < t ∧ t < r) ∨ (r < t ∧ t < r + s)

/-- The relation as its top-level rows state it, strict sides moved by the separation `s`. -/
def Strict : Rel → Rat → Rat → Rat → Prop
  | .eq, t, r, _ => t = r
  | .ne, t, r, s => t ≤ r - s ∨ r + s ≤ t
  | .le, t, r, _ => t ≤ r
  | .ge, t, r, _ => r ≤ t
  | .lt, t, r, s => t ≤ r - s
  | .gt, t, r, s => r + s ≤ t

instance (rel : Rel) (t r : Rat) : Decidable (rel.Holds t r) := by
  cases rel <;> unfold Holds <;> infer_instance

instance (rel : Rel) (t r s : Rat) : Decidable (rel.InGap t r s) := by
  cases rel <;> unfold InGap <;> infer_instance

instance (rel : Rel) (t r s : Rat) : Decidable (rel.Strict t r s) := by
  cases rel <;> unfold Strict <;> infer_instance

variable {t r s : Rat}

/-- The top-level form of a relation is its truth outside its gap. -/
theorem strict_iff (hs : 0 < s) (rel : Rel) :
    rel.Strict t r s ↔ rel.Holds t r ∧ ¬rel.InGap t r s := by
  cases rel <;> simp only [Strict, Holds, InGap, not_or, not_and, not_lt]
  · constructor
    · rintro rfl
      exact ⟨rfl, fun _ => le_refl _, fun h => absurd h (lt_irrefl _)⟩
    · exact fun h => h.1
  · constructor
    · rintro (h | h)
      · exact ⟨by linarith, fun h' => by linarith, fun h' => by linarith⟩
      · exact ⟨by linarith, fun h' => by linarith, fun h' => by linarith⟩
    · rintro ⟨hne, hlo, hhi⟩
      rcases lt_or_gt_of_ne hne with hlt | hgt
      · exact Or.inl (by by_contra h; exact absurd (hlo (by linarith)) (not_le.2 hlt))
      · exact Or.inr (hhi hgt)
  · exact ⟨fun h => ⟨h, fun h' => absurd h (not_le.2 h')⟩, fun h => h.1⟩
  · exact ⟨fun h => ⟨h, fun _ => h⟩, fun h => h.1⟩
  · constructor
    · intro h
      exact ⟨by linarith, fun h' => by linarith⟩
    · rintro ⟨hlt, hgap⟩
      by_contra h
      exact absurd (hgap (by linarith)) (not_le.2 hlt)
  · constructor
    · intro h
      exact ⟨by linarith, fun _ => h⟩
    · rintro ⟨hlt, hgap⟩
      exact hgap hlt

example : Rel.lt.Strict 1 2 1 ∧ ¬Rel.lt.InGap 1 2 1 := by decide +kernel

end Rel

/-! ### Rows bound by an indicator, read with rationals -/

section IndicatorRows

variable {t r s h f : Rat}

/-- Two rows bound by an indicator `z`: `z ⇒ t ≤ h` and `¬z ⇒ t ≥ f`, with `h < f`. -/
theorem upper_pair_iff (hhf : h < f) (z : Bool) :
    ((z = true → t ≤ h) ∧ (z = false → f ≤ t)) ↔ ¬(h < t ∧ t < f) ∧ (z = true ↔ t ≤ h) := by
  cases z
  · simp only [Bool.false_eq_true, false_implies, forall_const, true_and, false_iff, not_le]
    constructor
    · intro hft
      exact ⟨fun hg => absurd hg.2 (not_lt.2 hft), by linarith⟩
    · rintro ⟨hgap, hht⟩
      by_contra hlt
      exact hgap ⟨hht, not_le.1 hlt⟩
  · simp only [forall_const, Bool.true_eq_false, false_implies, and_true, true_iff]
    constructor
    · intro hth
      exact ⟨fun hg => absurd hg.1 (not_lt.2 hth), hth⟩
    · exact fun h => h.2

/-- Two rows bound by an indicator `z`: `z ⇒ t ≥ h` and `¬z ⇒ t ≤ f`, with `f < h`. -/
theorem lower_pair_iff (hfh : f < h) (z : Bool) :
    ((z = true → h ≤ t) ∧ (z = false → t ≤ f)) ↔ ¬(f < t ∧ t < h) ∧ (z = true ↔ h ≤ t) := by
  cases z
  · simp only [Bool.false_eq_true, false_implies, forall_const, true_and, false_iff, not_le]
    constructor
    · intro htf
      exact ⟨fun hg => absurd hg.1 (not_lt.2 htf), by linarith⟩
    · rintro ⟨hgap, hth⟩
      by_contra hlt
      exact hgap ⟨not_le.1 hlt, hth⟩
  · simp only [forall_const, Bool.true_eq_false, false_implies, and_true, true_iff]
    constructor
    · intro hht
      exact ⟨fun hg => absurd hg.2 (not_lt.2 hht), hht⟩
    · exact fun h => h.2

/-- The four rows of an equality bound by `on`, the side binary `y` free. -/
theorem eq_rows_iff (hs : 0 < s) (on : Bool) :
    (∃ y : Bool, (on = true → t ≤ r) ∧ (on = true → r ≤ t) ∧
        (on = false ∧ y = true → t ≤ r - s) ∧ (on = false ∧ y = false → r + s ≤ t)) ↔
      ¬Rel.eq.InGap t r s ∧ (on = true ↔ Rel.eq.Holds t r) := by
  simp only [Rel.InGap, Rel.Holds, not_or, not_and, not_lt]
  cases on
  · simp only [Bool.false_eq_true, false_implies, true_and, false_iff]
    constructor
    · rintro ⟨y, hy₁, hy₂⟩
      cases y
      · have := hy₂ rfl
        exact ⟨⟨fun _ => by linarith, fun _ => by linarith⟩, by intro h; linarith⟩
      · have := hy₁ rfl
        exact ⟨⟨fun _ => by linarith, fun _ => by linarith⟩, by intro h; linarith⟩
    · rintro ⟨⟨hlo, hhi⟩, hne⟩
      rcases lt_or_gt_of_ne hne with hlt | hgt
      · exact ⟨true, fun _ => by
          by_contra h'
          exact absurd (hlo (not_le.1 h')) (not_le.2 hlt), fun h => absurd h (by decide)⟩
      · exact ⟨false, fun h => absurd h Bool.false_ne_true, fun _ => by
          by_contra h'
          exact absurd (hhi hgt) (not_le.2 (not_le.1 h'))⟩
  · simp only [forall_const, Bool.true_eq_false, false_and, false_implies, and_true, true_iff,
      exists_const]
    constructor
    · rintro ⟨h₁, h₂⟩
      have : t = r := le_antisymm h₁ h₂
      subst this
      exact ⟨⟨fun _ => le_refl _, fun h => absurd h (lt_irrefl _)⟩, rfl⟩
    · rintro ⟨-, rfl⟩
      exact ⟨le_refl _, le_refl _⟩

/-- The rows of `≠`: those of `=` under the negated indicator. -/
theorem ne_rows_iff (hs : 0 < s) (zb : Bool) :
    (∃ y : Bool, (zb = false → t ≤ r) ∧ (zb = false → r ≤ t) ∧
        (zb = true ∧ y = true → t ≤ r - s) ∧ (zb = true ∧ y = false → r + s ≤ t)) ↔
      ¬Rel.ne.InGap t r s ∧ (zb = true ↔ Rel.ne.Holds t r) := by
  have h := @eq_rows_iff t r s hs (!zb)
  cases zb <;> simpa [Rel.InGap, Rel.Holds] using h

theorem le_sub_iff_of_not_gap (hs : 0 < s) (h : ¬(r - s < t ∧ t < r)) : t ≤ r - s ↔ t < r := by
  constructor
  · intro ht
    linarith
  · intro ht
    by_contra hlt
    exact h ⟨not_le.1 hlt, ht⟩

theorem add_le_iff_of_not_gap (hs : 0 < s) (h : ¬(r < t ∧ t < r + s)) : r + s ≤ t ↔ r < t := by
  constructor
  · intro ht
    linarith
  · intro ht
    by_contra hlt
    exact h ⟨ht, not_le.1 hlt⟩

end IndicatorRows

namespace Lowering

/-! ### Runs of the steps of a relation -/

section Runs

variable {α : Type} [Scalar α] {b b' : Builder α}

omit [Scalar α] in
theorem post_run (r : Row α) (b : Builder α) :
    (post r).run b = .ok () { b with model := b.model.addRow r } := rfl

theorem separation_run (expr : Row α) (b : Builder α) :
    (separation expr).run b = .ok
      (if b.config.integralSeparation && Scalar.isWhole expr.rhs && expr.isIntegral b.model.columns
        then Scalar.one else b.config.epsilon) b := rfl

/-- A fresh indicator is the next column, a binary one; nothing else changes. -/
theorem indicator_run_ok {id : Nat} {tag : String} {z : Nat}
    (h : (indicator id tag).run b = .ok z b') :
    z = b.model.columns.size ∧ b'.config = b.config ∧ b'.model.rows = b.model.rows ∧
      ∃ col, b'.model.columns = b.model.columns.push col := by
  have hrun : (indicator id tag).run b = .ok b.model.columns.size
      { b with model := (b.model.addColumn
        (if tag.isEmpty then "b" ++ toString id else "b" ++ toString id ++ "." ++ tag)
        .binary Scalar.zero Scalar.one).2 } := rfl
  rw [hrun] at h
  cases h
  exact ⟨rfl, rfl, rfl, _, rfl⟩

theorem bigM_run (id : Nat) (gap : α) (b : Builder α) :
    (bigM id gap).run b =
      if Scalar.isFinite (Scalar.max gap Scalar.zero) then .ok (Scalar.max gap Scalar.zero) b
      else .error (.unboundedBigM id) b := by
  unfold bigM
  dsimp only
  by_cases hc : Scalar.isFinite (Scalar.max gap Scalar.zero) = true
  · rw [if_pos hc, if_pos hc]
    rfl
  · rw [if_neg hc, if_neg hc]
    rfl

/-- `implyLe` posts the row of its implication, with the big-M of the activity bounds. -/
theorem implyLe_run_ok {id : Nat} {expr : Row α} {bound : α} {guards : List Lit} {u : Unit}
    (h : (implyLe id expr bound guards).run b = .ok u b') :
    Scalar.isFinite (Scalar.max ((expr.activityBounds b.model.columns).2 - bound) Scalar.zero) ∧
      b' = { b with model := b.model.addRow (guardedLe
        (Scalar.max ((expr.activityBounds b.model.columns).2 - bound) Scalar.zero)
          expr bound guards) } := by
  have hrun : (implyLe id expr bound guards).run b =
      (bigM id ((expr.activityBounds b.model.columns).2 - bound) >>= fun m =>
        post (guardedLe m expr bound guards)).run b := rfl
  rw [hrun, run_bind, bigM_run] at h
  split_ifs at h with hfin
  dsimp only at h
  rw [post_run] at h
  cases h
  exact ⟨hfin, rfl⟩

/-- `implyGe` posts the row of its implication, with the big-M of the activity bounds. -/
theorem implyGe_run_ok {id : Nat} {expr : Row α} {bound : α} {guards : List Lit} {u : Unit}
    (h : (implyGe id expr bound guards).run b = .ok u b') :
    Scalar.isFinite (Scalar.max (bound - (expr.activityBounds b.model.columns).1) Scalar.zero) ∧
      b' = { b with model := b.model.addRow (guardedGe
        (Scalar.max (bound - (expr.activityBounds b.model.columns).1) Scalar.zero)
          expr bound guards) } := by
  have hrun : (implyGe id expr bound guards).run b =
      (bigM id (bound - (expr.activityBounds b.model.columns).1) >>= fun m =>
        post (guardedGe m expr bound guards)).run b := rfl
  rw [hrun, run_bind, bigM_run] at h
  split_ifs at h with hfin
  dsimp only at h
  rw [post_run] at h
  cases h
  exact ⟨hfin, rfl⟩

end Runs

/-! ### Rows added by a lowering -/

section Added

variable {α : Type} {b b₁ b₂ : Builder α}

/-- The rows a lowering added from `b` to `b'`. -/
def addedRows (b b' : Builder α) : List (Row α) := b'.model.rows.toList.drop b.model.rows.size

/-- `b'` extends `b` by rows only: the rows of `b` come first, the columns are the same. -/
def AddsRows (b b' : Builder α) : Prop :=
  b.model.rows.toList <+: b'.model.rows.toList ∧ b'.model.columns = b.model.columns

theorem addedRows_trans (h₁ : b.model.rows.toList <+: b₁.model.rows.toList)
    (h₂ : b₁.model.rows.toList <+: b₂.model.rows.toList) :
    addedRows b b₂ = addedRows b b₁ ++ addedRows b₁ b₂ := by
  obtain ⟨Y, hY⟩ := h₁
  obtain ⟨X, hX⟩ := h₂
  unfold addedRows
  rw [← Array.length_toList, ← Array.length_toList, ← hX, List.drop_left, ← hY, List.append_assoc,
    List.drop_left, List.drop_left]

theorem AddsRows.trans (h₁ : AddsRows b b₁) (h₂ : AddsRows b₁ b₂) : AddsRows b b₂ :=
  ⟨h₁.1.trans h₂.1, h₂.2.trans h₁.2⟩

theorem addsRows_addRow (R : Row α) : AddsRows b { b with model := b.model.addRow R } :=
  ⟨by simp [FlatModel.addRow], rfl⟩

theorem addedRows_addRow (R : Row α) : addedRows b { b with model := b.model.addRow R } = [R] := by
  simp [addedRows, FlatModel.addRow]

theorem addedRows_of_rows_eq (h : b₁.model.rows = b.model.rows) : addedRows b b₁ = [] := by
  simp [addedRows, h]

end Added

/-- Every row added from `b` to `b'` holds exactly at `W`. -/
def AddedRowsAdmit (b b' : Builder ERat) (W : Array ERat) : Prop :=
  ∀ R ∈ addedRows b b', R.Admits W

theorem addedRowsAdmit_trans {b b₁ b₂ : Builder ERat} {W : Array ERat}
    (h₁ : b.model.rows.toList <+: b₁.model.rows.toList)
    (h₂ : b₁.model.rows.toList <+: b₂.model.rows.toList) :
    AddedRowsAdmit b b₂ W ↔ AddedRowsAdmit b b₁ W ∧ AddedRowsAdmit b₁ b₂ W := by
  simp only [AddedRowsAdmit, addedRows_trans h₁ h₂, List.forall_mem_append]

theorem addedRowsAdmit_of_rows_eq {b b₁ : Builder ERat} {W : Array ERat}
    (h : b₁.model.rows = b.model.rows) : AddedRowsAdmit b b₁ W := by
  simp [AddedRowsAdmit, addedRows_of_rows_eq h]

section Specs

variable {b b' : Builder ERat} {id : Nat} {expr : Row ERat} {gs : List Lit} {u : Unit}

/-- `implyLe` adds one row, which holds exactly when its guards imply `expr ≤ β`. -/
theorem implyLe_spec (hnz : expr.NonzeroCoefs) {β : Rat}
    (h : (implyLe id expr (.fin β) gs).run b = .ok u b') :
    AddsRows b b' ∧ ∀ W, expr.Within b.model.columns W → (∀ l ∈ gs, l.Binary W) →
      (AddedRowsAdmit b b' W ↔ ((∀ l ∈ gs, l.value W = 1) → expr.value W ≤ β)) := by
  obtain ⟨hfin, rfl⟩ := implyLe_run_ok h
  refine ⟨addsRows_addRow _, fun W hW hgs => ?_⟩
  obtain ⟨-, hhi⟩ := Row.activityBounds_brackets hnz hW
  obtain ⟨hb, ht, hM⟩ := bigM_of_upper hhi hfin
  simp only [AddedRowsAdmit, addedRows_addRow, List.mem_singleton, forall_eq, hM]
  exact guardedLe_admits_iff hnz.finiteCoefs hW.finiteAt hgs ht

/-- `implyGe` adds one row, which holds exactly when its guards imply `expr ≥ β`. -/
theorem implyGe_spec (hnz : expr.NonzeroCoefs) {β : Rat}
    (h : (implyGe id expr (.fin β) gs).run b = .ok u b') :
    AddsRows b b' ∧ ∀ W, expr.Within b.model.columns W → (∀ l ∈ gs, l.Binary W) →
      (AddedRowsAdmit b b' W ↔ ((∀ l ∈ gs, l.value W = 1) → β ≤ expr.value W)) := by
  obtain ⟨hfin, rfl⟩ := implyGe_run_ok h
  refine ⟨addsRows_addRow _, fun W hW hgs => ?_⟩
  obtain ⟨hlo, -⟩ := Row.activityBounds_brackets hnz hW
  obtain ⟨lb, ht, hM⟩ := bigM_of_lower hlo hfin
  simp only [AddedRowsAdmit, addedRows_addRow, List.mem_singleton, forall_eq, hM]
  exact guardedGe_admits_iff hnz.finiteCoefs hW.finiteAt hgs ht

/-- `implyLe` under one literal, read at a value `zb` of the literal's column. -/
theorem implyLe_lit_spec (hnz : expr.NonzeroCoefs) {β : Rat} {l : Lit}
    (h : (implyLe id expr (.fin β) [l]).run b = .ok u b') :
    AddsRows b b' ∧ ∀ W zb, expr.Within b.model.columns W →
      W.getD l.column Scalar.zero = ofBool zb →
      (AddedRowsAdmit b b' W ↔ (zb = l.positive → expr.value W ≤ β)) := by
  obtain ⟨hs, hsem⟩ := implyLe_spec hnz h
  refine ⟨hs, fun W zb hW hz => ?_⟩
  rw [hsem W hW (by simpa using Lit.binary_of_getD l hz)]
  simp only [List.mem_singleton, forall_eq, Lit.value_eq_one_iff l hz]

/-- `implyGe` under one literal, read at a value `zb` of the literal's column. -/
theorem implyGe_lit_spec (hnz : expr.NonzeroCoefs) {β : Rat} {l : Lit}
    (h : (implyGe id expr (.fin β) [l]).run b = .ok u b') :
    AddsRows b b' ∧ ∀ W zb, expr.Within b.model.columns W →
      W.getD l.column Scalar.zero = ofBool zb →
      (AddedRowsAdmit b b' W ↔ (zb = l.positive → β ≤ expr.value W)) := by
  obtain ⟨hs, hsem⟩ := implyGe_spec hnz h
  refine ⟨hs, fun W zb hW hz => ?_⟩
  rw [hsem W hW (by simpa using Lit.binary_of_getD l hz)]
  simp only [List.mem_singleton, forall_eq, Lit.value_eq_one_iff l hz]

/-- A fresh indicator is the next column; the rows added after it are all the rows added. -/
theorem indicator_spec {b₁ : Builder ERat} {tag : String} {z : Nat}
    (h : (indicator id tag).run b = .ok z b₁) (hpre : b₁.model.rows.toList <+: b'.model.rows.toList) :
    z = b.model.columns.size ∧ (∃ col, b₁.model.columns = b.model.columns.push col) ∧
      b.model.rows.toList <+: b'.model.rows.toList ∧
      ∀ W, AddedRowsAdmit b b' W ↔ AddedRowsAdmit b₁ b' W := by
  obtain ⟨rfl, -, hrows, col, hcols⟩ := indicator_run_ok h
  have hpre₀ : b.model.rows.toList <+: b₁.model.rows.toList := hrows ▸ List.prefix_refl _
  refine ⟨rfl, ⟨col, hcols⟩, hpre₀.trans hpre, fun W => ?_⟩
  rw [addedRowsAdmit_trans hpre₀ hpre]
  exact ⟨fun h => h.2, fun h => ⟨addedRowsAdmit_of_rows_eq hrows, h⟩⟩

/-- The upper `reifyBound`: `z ⇒ expr ≤ h` and `¬z ⇒ expr ≥ f`. -/
theorem reifyBound_upper_spec (hnz : expr.NonzeroCoefs) {hq fq : Rat} {z : Nat}
    (h : (reifyBound id expr (.fin hq) (.fin fq) ⟨z, true⟩ true).run b = .ok u b') :
    AddsRows b b' ∧ ∀ W zb, expr.Within b.model.columns W → W.getD z Scalar.zero = ofBool zb →
      (AddedRowsAdmit b b' W ↔
        (zb = true → expr.value W ≤ hq) ∧ (zb = false → fq ≤ expr.value W)) := by
  have hrun : (reifyBound id expr (.fin hq) (.fin fq) ⟨z, true⟩ true).run b =
      (implyLe id expr (.fin hq) [⟨z, true⟩] >>= fun _ =>
        implyGe id expr (.fin fq) [⟨z, false⟩]).run b := rfl
  obtain ⟨_, b₁, h₁, h₂⟩ := run_bind_ok (hrun ▸ h)
  obtain ⟨hs₁, hsem₁⟩ := implyLe_lit_spec hnz h₁
  obtain ⟨hs₂, hsem₂⟩ := implyGe_lit_spec hnz h₂
  refine ⟨hs₁.trans hs₂, fun W zb hW hz => ?_⟩
  rw [addedRowsAdmit_trans hs₁.1 hs₂.1, hsem₁ W zb hW hz, hsem₂ W zb (hs₁.2 ▸ hW) hz]

/-- The lower `reifyBound`: `z ⇒ expr ≥ h` and `¬z ⇒ expr ≤ f`. -/
theorem reifyBound_lower_spec (hnz : expr.NonzeroCoefs) {hq fq : Rat} {z : Nat}
    (h : (reifyBound id expr (.fin hq) (.fin fq) ⟨z, true⟩ false).run b = .ok u b') :
    AddsRows b b' ∧ ∀ W zb, expr.Within b.model.columns W → W.getD z Scalar.zero = ofBool zb →
      (AddedRowsAdmit b b' W ↔
        (zb = true → hq ≤ expr.value W) ∧ (zb = false → expr.value W ≤ fq)) := by
  have hrun : (reifyBound id expr (.fin hq) (.fin fq) ⟨z, true⟩ false).run b =
      (implyGe id expr (.fin hq) [⟨z, true⟩] >>= fun _ =>
        implyLe id expr (.fin fq) [⟨z, false⟩]).run b := rfl
  obtain ⟨_, b₁, h₁, h₂⟩ := run_bind_ok (hrun ▸ h)
  obtain ⟨hs₁, hsem₁⟩ := implyGe_lit_spec hnz h₁
  obtain ⟨hs₂, hsem₂⟩ := implyLe_lit_spec hnz h₂
  refine ⟨hs₁.trans hs₂, fun W zb hW hz => ?_⟩
  rw [addedRowsAdmit_trans hs₁.1 hs₂.1, hsem₁ W zb hW hz, hsem₂ W zb (hs₁.2 ▸ hW) hz]

/-- `reifyEq`: `on ⇒ expr = r`, and under `¬on` a fresh side binary `y` selects
`expr ≤ r - s` or `expr ≥ r + s`. -/
theorem reifyEq_spec (hnz : expr.NonzeroCoefs) {r s : Rat} {on : Lit}
    (h : (reifyEq id expr (.fin r) (.fin s) on).run b = .ok u b') :
    b.model.rows.toList <+: b'.model.rows.toList ∧
      (∃ col, b'.model.columns = b.model.columns.push col) ∧
      ∀ W zb yb, expr.Within b.model.columns W → W.getD on.column Scalar.zero = ofBool zb →
        W.getD b.model.columns.size Scalar.zero = ofBool yb →
        (AddedRowsAdmit b b' W ↔
          (zb = on.positive → expr.value W ≤ r) ∧ (zb = on.positive → r ≤ expr.value W) ∧
          (zb = !on.positive ∧ yb = true → expr.value W ≤ r - s) ∧
          (zb = !on.positive ∧ yb = false → r + s ≤ expr.value W)) := by
  have hrun : (reifyEq id expr (.fin r) (.fin s) on).run b =
      (implyLe id expr (.fin r) [on] >>= fun _ => implyGe id expr (.fin r) [on] >>= fun _ =>
        indicator id "side" >>= fun y =>
        implyLe id expr (.fin r - .fin s) [on.negate, ⟨y, true⟩] >>= fun _ =>
        implyGe id expr (.fin r + .fin s) [on.negate, ⟨y, false⟩]).run b := rfl
  obtain ⟨_, b₁, h₁, hk⟩ := run_bind_ok (hrun ▸ h)
  obtain ⟨_, b₂, h₂, hk⟩ := run_bind_ok hk
  obtain ⟨y, b₃, h₃, hk⟩ := run_bind_ok hk
  obtain ⟨_, b₄, h₄, h₅⟩ := run_bind_ok hk
  rw [fin_sub_fin] at h₄
  rw [fin_add_fin] at h₅
  obtain ⟨hs₁, hsem₁⟩ := implyLe_lit_spec hnz h₁
  obtain ⟨hs₂, hsem₂⟩ := implyGe_lit_spec hnz h₂
  obtain ⟨hs₄, hsem₄⟩ := implyLe_spec hnz h₄
  obtain ⟨hs₅, hsem₅⟩ := implyGe_spec hnz h₅
  obtain ⟨rfl, ⟨col, hcols⟩, hpre₃, hside⟩ := indicator_spec h₃ (hs₄.1.trans hs₅.1)
  have hcols₂ : b₂.model.columns = b.model.columns := hs₂.2.trans hs₁.2
  rw [hcols₂] at hcols hsem₄ hsem₅
  refine ⟨hs₁.1.trans (hs₂.1.trans hpre₃), ⟨col, by rw [hs₅.2, hs₄.2, hcols]⟩,
    fun W zb yb hW hz hy => ?_⟩
  have hW₃ : expr.Within b₃.model.columns W := hcols ▸ hW.push_column col
  -- the two rows under `on`, then the two under `¬on` and the side binary
  rw [addedRowsAdmit_trans hs₁.1 (hs₂.1.trans hpre₃), addedRowsAdmit_trans hs₂.1 hpre₃, hside,
    addedRowsAdmit_trans hs₄.1 hs₅.1, hsem₁ W zb hW hz, hsem₂ W zb (hs₁.2 ▸ hW) hz,
    hsem₄ W hW₃ (by simpa using ⟨Lit.binary_of_getD on.negate hz,
      Lit.binary_of_getD ⟨b.model.columns.size, true⟩ hy⟩),
    hsem₅ W (hs₄.2 ▸ hW₃) (by simpa using ⟨Lit.binary_of_getD on.negate hz,
      Lit.binary_of_getD ⟨b.model.columns.size, false⟩ hy⟩)]
  simp only [List.mem_singleton, forall_eq, List.forall_mem_cons,
    Lit.value_eq_one_iff on.negate hz, Lit.value_eq_one_iff ⟨b.model.columns.size, true⟩ hy,
    Lit.value_eq_one_iff ⟨b.model.columns.size, false⟩ hy]
  exact Iff.rfl

end Specs

/-! ### Relations -/

section Relations

variable {b b' : Builder ERat} {id : Nat} {expr : Row ERat} {e : Encoding} {ε r : Rat}

/-- The separation read with rationals, `ε` being the configured epsilon. -/
def separationOf (b : Builder ERat) (expr : Row ERat) (ε : Rat) : Rat :=
  if b.config.integralSeparation && Scalar.isWhole expr.rhs && expr.isIntegral b.model.columns
  then 1 else ε

theorem separation_fin (hε : b.config.epsilon = .fin ε) :
    (if b.config.integralSeparation && Scalar.isWhole expr.rhs && expr.isIntegral b.model.columns
      then Scalar.one else b.config.epsilon) = ERat.fin (separationOf b expr ε) := by
  unfold separationOf
  split
  · simp [Scalar.one]
  · exact hε

theorem separationOf_pos (hε : 0 < ε) : 0 < separationOf b expr ε := by
  unfold separationOf
  split
  · exact one_pos
  · exact hε

/-- A top-level row `lo ≤ expr ≤ hi`, read at any value of a fresh side binary. -/
theorem post_spec (hnz : expr.NonzeroCoefs) {lo hi : ERat}
    (h : (post (expr.withBounds lo hi) >>= fun _ => pure Encoding.posted).run b = .ok e b') :
    e = .posted ∧ ∀ V : Array ERat, V.size = b.model.columns.size →
      expr.Within b.model.columns V →
      ((∃ y, AddedRowsAdmit b b' (V.push (ofBool y))) ↔
        lo ≤ .fin (expr.value V) ∧ .fin (expr.value V) ≤ hi) := by
  rw [run_bind, post_run] at h
  cases h
  refine ⟨rfl, fun V hsize hV => ?_⟩
  have hrow : ∀ y, AddedRowsAdmit b { b with model := b.model.addRow (expr.withBounds lo hi) }
      (V.push (ofBool y)) ↔ lo ≤ .fin (expr.value V) ∧ .fin (expr.value V) ≤ hi := fun y => by
    have hW := hV.push_value hsize (ofBool y)
    simp only [AddedRowsAdmit, addedRows_addRow, List.mem_singleton, forall_eq, Row.Admits,
      Row.activity_eq_value (hnz.finiteCoefs.withBounds _ _) (hW.finiteAt.withBounds _ _),
      Row.value_withBounds, Row.value_push hV hsize]
    rfl
  simp only [hrow, exists_const]

/-- Relations at top level: the rows hold, for some value of the side binary, exactly when the
relation holds with its strict sides moved by the separation. -/
theorem encodeRel_top_spec (hε : b.config.epsilon = .fin ε) (hnz : expr.NonzeroCoefs)
    (hr : expr.rhs = .fin r) {rel : Rel} (h : (encodeRel id rel expr true).run b = .ok e b') :
    e = .posted ∧ ∀ V : Array ERat, V.size = b.model.columns.size →
      expr.Within b.model.columns V →
      ((∃ y, AddedRowsAdmit b b' (V.push (ofBool y))) ↔
        rel.Strict (expr.value V) r (separationOf b expr ε)) := by
  obtain ⟨σ, b₀, hs, hk⟩ := @run_bind_ok ERat _ _ (separation expr) _ b b' e h
  rw [separation_run] at hs
  cases hs
  simp only [if_true] at hk
  rw [separation_fin hε, hr] at hk
  cases rel <;> dsimp only at hk
  · obtain ⟨rfl, hrows⟩ := post_spec hnz hk
    exact ⟨rfl, fun V hsize hV => by rw [hrows V hsize hV]; simp [Rel.Strict, le_antisymm_iff, and_comm]⟩
  · -- `≠`: a side binary `y` selects `expr ≤ r - sep` or `expr ≥ r + sep`
    obtain ⟨y, b₁, hy, hk⟩ := run_bind_ok hk
    obtain ⟨_, b₂, h₂, hk⟩ := run_bind_ok hk
    obtain ⟨_, b₃, h₃, hk⟩ := run_bind_ok hk
    cases hk
    rw [fin_sub_fin] at h₂
    rw [fin_add_fin] at h₃
    obtain ⟨hs₂, hsem₂⟩ := implyLe_lit_spec hnz h₂
    obtain ⟨hs₃, hsem₃⟩ := implyGe_lit_spec hnz h₃
    obtain ⟨rfl, ⟨col, hcols⟩, -, hstart⟩ := indicator_spec hy (hs₂.1.trans hs₃.1)
    refine ⟨rfl, fun V hsize hV => ?_⟩
    have hrows : ∀ yb, AddedRowsAdmit b b' (V.push (ofBool yb)) ↔
        (yb = true → expr.value V ≤ r - separationOf b expr ε) ∧
          (yb = false → r + separationOf b expr ε ≤ expr.value V) := fun yb => by
      have hW : expr.Within b₁.model.columns (V.push (ofBool yb)) := by
        rw [hcols]
        exact hV.push_fresh hsize col _
      have hy : (V.push (ofBool yb)).getD b.model.columns.size Scalar.zero = ofBool yb := by
        rw [← hsize, getD_push_size]
      rw [hstart, addedRowsAdmit_trans hs₂.1 hs₃.1, hsem₂ _ yb hW hy, hsem₃ _ yb (hs₂.2 ▸ hW) hy,
        Row.value_push hV hsize]
    simp only [hrows, Bool.exists_bool, Rel.Strict]
    simp [or_comm]
  · obtain ⟨rfl, hrows⟩ := post_spec hnz hk
    exact ⟨rfl, fun V hsize hV => by rw [hrows V hsize hV]; simp [Rel.Strict]⟩
  · obtain ⟨rfl, hrows⟩ := post_spec hnz hk
    exact ⟨rfl, fun V hsize hV => by rw [hrows V hsize hV]; simp [Rel.Strict]⟩
  · obtain ⟨rfl, hrows⟩ := post_spec hnz hk
    exact ⟨rfl, fun V hsize hV => by rw [hrows V hsize hV]; simp [Rel.Strict]⟩
  · obtain ⟨rfl, hrows⟩ := post_spec hnz hk
    exact ⟨rfl, fun V hsize hV => by rw [hrows V hsize hV]; simp [Rel.Strict]⟩

/-- A nested relation's rows read after its indicator `z`: at a value `zb` of `z`, the rows
added hold for some value of the side binary exactly when the body's condition does. -/
theorem nested_of_body {b₁ : Builder ERat} {z : Nat} (hz : (indicator id "").run b = .ok z b₁)
    (hpre : b₁.model.rows.toList <+: b'.model.rows.toList) (Φ : Bool → Bool → Rat → Prop)
    (hΦ : ∀ W zb yb, expr.Within b₁.model.columns W → W.getD z Scalar.zero = ofBool zb →
      W.getD b₁.model.columns.size Scalar.zero = ofBool yb →
      (AddedRowsAdmit b₁ b' W ↔ Φ zb yb (expr.value W)))
    {V : Array ERat} (hsize : V.size = b.model.columns.size) (hV : expr.Within b.model.columns V)
    (zb : Bool) :
    (∃ yb, AddedRowsAdmit b b' ((V.push (ofBool zb)).push (ofBool yb))) ↔
      ∃ yb, Φ zb yb (expr.value V) := by
  obtain ⟨rfl, ⟨col, hcols⟩, -, hstart⟩ := indicator_spec hz hpre
  refine exists_congr fun yb => ?_
  have hsize₁ : (V.push (ofBool zb)).size = b₁.model.columns.size := by simp [hcols, hsize]
  have hW₀ := hV.push_fresh hsize col (ofBool zb)
  have hW : expr.Within b₁.model.columns ((V.push (ofBool zb)).push (ofBool yb)) :=
    (hcols ▸ hW₀).push_value hsize₁ _
  have hzv : ((V.push (ofBool zb)).push (ofBool yb)).getD b.model.columns.size Scalar.zero =
      ofBool zb := by
    rw [getD_push_of_lt (by simp [hsize]), ← hsize, getD_push_size]
  have hyv : ((V.push (ofBool zb)).push (ofBool yb)).getD b₁.model.columns.size Scalar.zero =
      ofBool yb := by
    rw [← hsize₁, getD_push_size]
  rw [hstart, hΦ _ zb yb hW hzv hyv, Row.value_push (hcols ▸ hW₀) hsize₁,
    Row.value_push hV hsize]

/-- Nested relations: for each value of the indicator, the rows hold for some value of the side
binary exactly when the fragment's value lies outside the gap and the indicator is the truth of
the relation. -/
theorem encodeRel_nested_spec (hε : b.config.epsilon = .fin ε) (hεpos : 0 < ε)
    (hnz : expr.NonzeroCoefs) (hr : expr.rhs = .fin r) {rel : Rel}
    (h : (encodeRel id rel expr false).run b = .ok e b') :
    e = .column b.model.columns.size ∧ ∀ V : Array ERat, V.size = b.model.columns.size →
      expr.Within b.model.columns V → ∀ zb,
      ((∃ yb, AddedRowsAdmit b b' ((V.push (ofBool zb)).push (ofBool yb))) ↔
        ¬rel.InGap (expr.value V) r (separationOf b expr ε) ∧
          (zb = true ↔ rel.Holds (expr.value V) r)) := by
  obtain ⟨σ, b₀, hs, hk⟩ := @run_bind_ok ERat _ _ (separation expr) _ b b' e h
  rw [separation_run] at hs
  cases hs
  simp only [Bool.false_eq_true, if_false] at hk
  rw [separation_fin hε, hr] at hk
  have hsep : 0 < separationOf b expr ε := separationOf_pos hεpos
  set s := separationOf b expr ε
  obtain ⟨z, b₁, hz, hk⟩ := run_bind_ok hk
  obtain ⟨rfl, -⟩ := indicator_run_ok hz
  cases rel <;> dsimp only at hk <;> obtain ⟨_, b₂, h₂, hk⟩ := run_bind_ok hk <;> cases hk <;>
    refine ⟨rfl, fun V hsize hV zb => ?_⟩
  · -- `=`: `z ⇒ t = r`, `¬z ⇒ t ≤ r - sep ∨ t ≥ r + sep`
    obtain ⟨hpre, -, hsem⟩ := reifyEq_spec hnz h₂
    rw [nested_of_body hz hpre (fun zb yb t => (zb = true → t ≤ r) ∧ (zb = true → r ≤ t) ∧
      (zb = false ∧ yb = true → t ≤ r - s) ∧ (zb = false ∧ yb = false → r + s ≤ t)) hsem hsize hV zb]
    exact eq_rows_iff hsep zb
  · -- `≠`: the rows of `=` under `¬z`
    obtain ⟨hpre, -, hsem⟩ := reifyEq_spec hnz h₂
    rw [nested_of_body hz hpre (fun zb yb t => (zb = false → t ≤ r) ∧ (zb = false → r ≤ t) ∧
      (zb = true ∧ yb = true → t ≤ r - s) ∧ (zb = true ∧ yb = false → r + s ≤ t)) hsem hsize hV zb]
    exact ne_rows_iff hsep zb
  · -- `≤`: `z ⇒ t ≤ r`, `¬z ⇒ t ≥ r + sep`
    rw [fin_add_fin] at h₂
    obtain ⟨hs₂, hsem⟩ := reifyBound_upper_spec hnz h₂
    rw [nested_of_body hz hs₂.1 (fun zb _ t => (zb = true → t ≤ r) ∧ (zb = false → r + s ≤ t))
      (fun W zb _ hW hzW _ => hsem W zb hW hzW) hsize hV zb, exists_const]
    exact upper_pair_iff (by linarith) zb
  · -- `≥`: `z ⇒ t ≥ r`, `¬z ⇒ t ≤ r - sep`
    rw [fin_sub_fin] at h₂
    obtain ⟨hs₂, hsem⟩ := reifyBound_lower_spec hnz h₂
    rw [nested_of_body hz hs₂.1 (fun zb _ t => (zb = true → r ≤ t) ∧ (zb = false → t ≤ r - s))
      (fun W zb _ hW hzW _ => hsem W zb hW hzW) hsize hV zb, exists_const]
    exact lower_pair_iff (by linarith) zb
  · -- `<`: `z ⇒ t ≤ r - sep`, `¬z ⇒ t ≥ r`
    rw [fin_sub_fin] at h₂
    obtain ⟨hs₂, hsem⟩ := reifyBound_upper_spec hnz h₂
    rw [nested_of_body hz hs₂.1 (fun zb _ t => (zb = true → t ≤ r - s) ∧ (zb = false → r ≤ t))
      (fun W zb _ hW hzW _ => hsem W zb hW hzW) hsize hV zb, exists_const,
      upper_pair_iff (by linarith) zb]
    exact and_congr_right fun hgap => by rw [Rel.Holds, le_sub_iff_of_not_gap hsep hgap]
  · -- `>`: `z ⇒ t ≥ r + sep`, `¬z ⇒ t ≤ r`
    rw [fin_add_fin] at h₂
    obtain ⟨hs₂, hsem⟩ := reifyBound_lower_spec hnz h₂
    rw [nested_of_body hz hs₂.1 (fun zb _ t => (zb = true → r + s ≤ t) ∧ (zb = false → t ≤ r))
      (fun W zb _ hW hzW _ => hsem W zb hW hzW) hsize hV zb, exists_const,
      lower_pair_iff (by linarith) zb]
    exact and_congr_right fun hgap => by rw [Rel.Holds, add_le_iff_of_not_gap hsep hgap]

/-- Relations are lowered exactly up to the separation gap. Read with exact arithmetic, for a
fragment with finite non-zero coefficients on existing columns and a finite right-hand side `r`,
and for any assignment `V` of the columns within their bounds (fragment value `t`):

* at top level, the rows hold for some value of the side binary exactly when `t = r`, `t ≠ r`
  outside `(r - sep, r + sep)`, `t ≤ r`, `t ≥ r`, `t ≤ r - sep` or `t ≥ r + sep`;
* nested, at each value of the indicator `z`, they hold for some value of the side binary
  exactly when `t` lies outside the gap and `z = 1` is the truth of `t rel r`. -/
theorem encodeRel_exact (hε : b.config.epsilon = .fin ε) (hεpos : 0 < ε)
    (hnz : expr.NonzeroCoefs) (hr : expr.rhs = .fin r) (rel : Rel) {V : Array ERat}
    (hsize : V.size = b.model.columns.size) (hV : expr.Within b.model.columns V) :
    (∀ e b', (encodeRel id rel expr true).run b = .ok e b' → e = .posted ∧
      ((∃ y, AddedRowsAdmit b b' (V.push (ofBool y))) ↔
        rel.Strict (expr.value V) r (separationOf b expr ε))) ∧
    (∀ e b', (encodeRel id rel expr false).run b = .ok e b' → e = .column b.model.columns.size ∧
      ∀ zb, ((∃ yb, AddedRowsAdmit b b' ((V.push (ofBool zb)).push (ofBool yb))) ↔
        ¬rel.InGap (expr.value V) r (separationOf b expr ε) ∧
          (zb = true ↔ rel.Holds (expr.value V) r))) := by
  refine ⟨fun e b' h => ?_, fun e b' h => ?_⟩
  · obtain ⟨he, hrows⟩ := encodeRel_top_spec hε hnz hr h
    exact ⟨he, hrows V hsize hV⟩
  · obtain ⟨he, hrows⟩ := encodeRel_nested_spec hε hεpos hnz hr h
    exact ⟨he, hrows V hsize hV⟩

end Relations

/-- One integer column `x ∈ [0, 3]` under the default configuration. -/
def rangeBuilder : Builder ERat :=
  { Builder.new with model := { columns := #[⟨"x", .integer, .fin 0, .fin 3, none⟩] } }

/-- The fragment `x` against `2`. -/
def rangeFragment : Row ERat := ⟨[(0, .fin 1)], .fin 0, .fin 2⟩

theorem rangeFragment_nonzeroCoefs : rangeFragment.NonzeroCoefs := by
  intro t ht
  simp only [rangeFragment, List.mem_singleton] at ht
  exact ⟨1, one_ne_zero, by rw [ht]⟩

/-- `x < 2` at `x = 1`, lowered at either level. -/
theorem rangeFragment_lt_exact :
    rangeBuilder.config.epsilon = .fin 1e-6 ∧ (0 : Rat) < 1e-6 ∧ rangeFragment.NonzeroCoefs ∧
      rangeFragment.rhs = .fin 2 ∧ (#[.fin 1] : Array ERat).size = rangeBuilder.model.columns.size ∧
      rangeFragment.Within rangeBuilder.model.columns #[.fin 1] ∧
      ((∀ e b', (encodeRel 1 .lt rangeFragment true).run rangeBuilder = .ok e b' → e = .posted ∧
        ((∃ y, AddedRowsAdmit rangeBuilder b' ((#[.fin 1] : Array ERat).push (ofBool y))) ↔
          Rel.lt.Strict (rangeFragment.value #[.fin 1]) 2
            (separationOf rangeBuilder rangeFragment 1e-6))) ∧
      (∀ e b', (encodeRel 1 .lt rangeFragment false).run rangeBuilder = .ok e b' →
        e = .column rangeBuilder.model.columns.size ∧
        ∀ zb, ((∃ yb, AddedRowsAdmit rangeBuilder b'
            (((#[.fin 1] : Array ERat).push (ofBool zb)).push (ofBool yb))) ↔
          ¬Rel.lt.InGap (rangeFragment.value #[.fin 1]) 2
            (separationOf rangeBuilder rangeFragment 1e-6) ∧
            (zb = true ↔ Rel.lt.Holds (rangeFragment.value #[.fin 1]) 2)))) := by
  have hε : rangeBuilder.config.epsilon = .fin 1e-6 := rfl
  have hεpos : (0 : Rat) < 1e-6 := by norm_num
  have hnz := rangeFragment_nonzeroCoefs
  have hV : rangeFragment.Within rangeBuilder.model.columns #[.fin 1] := by
    intro t ht
    simp only [rangeFragment, List.mem_singleton] at ht
    subst ht
    exact ⟨_, 1, rfl, rfl, fin_le_fin.2 (by norm_num), fin_le_fin.2 (by norm_num)⟩
  exact ⟨hε, hεpos, hnz, rfl, rfl, hV, encodeRel_exact hε hεpos hnz rfl .lt rfl hV⟩

/-- A NaN right-hand side, as a sum's offset may give: the first row of the indicator's
implication has a NaN bound. -/
def nanFragment : Row ERat := ⟨[(0, .fin 1)], .fin 0, .nan⟩

/-- The nested `x ≤ NaN` is lowered without error, but its rows hold at no assignment: neither
value of the indicator is left to the relation. -/
theorem nanFragment_le_admits_none :
    ∃ e b', (encodeRel 1 .le nanFragment false).run rangeBuilder = .ok e b' ∧
      ∀ W, ¬AddedRowsAdmit rangeBuilder b' W := by
  refine ⟨_, _, by with_unfolding_all rfl, fun W hW => ?_⟩
  exact le_nan _ (hW _ (List.mem_of_mem_head? (by with_unfolding_all rfl))).2

end Lowering

end MipLowering
