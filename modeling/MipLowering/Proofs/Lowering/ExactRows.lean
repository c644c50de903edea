import MipLowering.Lowering.Reify
import MipLowering.Scalar.Exact
import Mathlib.Algebra.Order.Field.Rat
import Mathlib.Algebra.Order.BigOperators.Group.List
import Mathlib.Tactic.Linarith
import Mathlib.Tactic.Ring

/-!
# Rows read exactly

The rows of the lowering read with exact arithmetic: `ERat` values through their rationals, the
summed side of a row as the rational `Row.value`, and `Row.Admits` for a row that holds with no
tolerance. For a row with finite non-zero coefficients and an assignment within the bounds of
its columns, `Row.activityBounds` brackets the value, infinite bounds included.

The rows `implyLe` and `implyGe` post for `guards ⇒ Σ ≤ bound` (or `≥`) are `guardedLe` and
`guardedGe`. Read exactly, such a row says `t ≤ bound + M · #false guards` (`guardedLe_admits`),
and a big-M that covers the range of the fragment makes it the implication
(`guardedLe_admits_iff`).

## Main definitions

* `MipLowering.ERat.toRat`, `MipLowering.Row.value` — rows read with rationals.
* `MipLowering.Row.Admits`, `MipLowering.Row.Within`, `MipLowering.Lit.value`.
* `MipLowering.Lowering.guardedLe`, `MipLowering.Lowering.guardedGe` — the rows of `implyLe`
  and `implyGe`.

## Main results

* `MipLowering.Row.activityBounds_brackets` — the activity bounds bracket the value.
* `MipLowering.Lowering.guardedLe_admits_iff`, `MipLowering.Lowering.guardedGe_admits_iff`.
-/

namespace MipLowering

namespace ERat

@[simp] theorem fin_add_fin (p q : Rat) : (fin p : ERat) + fin q = fin (p + q) := rfl

@[simp] theorem fin_mul_fin (p q : Rat) : (fin p : ERat) * fin q = fin (p * q) := rfl

@[simp] theorem neg_fin (q : Rat) : -(fin q : ERat) = fin (-q) := rfl

@[simp] theorem fin_lt_fin {p q : Rat} : (fin p : ERat) < fin q ↔ p < q := decide_eq_true_iff

@[simp] theorem fin_beq_fin (p q : Rat) : ((fin p : ERat) == fin q) = decide (p = q) := rfl

@[simp] theorem isFinite_fin (q : Rat) : Scalar.isFinite (fin q) = true := rfl

theorem max_fin (p q : Rat) : Scalar.max (fin p : ERat) (fin q) = fin (max p q) := by
  simp only [Scalar.max, fin_lt_fin]
  split_ifs with hnan hlt
  · cases hnan
  · rw [max_eq_left hlt.le]
  · rw [max_eq_right (not_lt.1 hlt)]

theorem min_fin (p q : Rat) : Scalar.min (fin p : ERat) (fin q) = fin (min p q) := by
  simp only [Scalar.min, fin_lt_fin]
  split_ifs with hnan hlt
  · cases hnan
  · rw [min_eq_left hlt.le]
  · rw [min_eq_right (not_lt.1 hlt)]

/-- The rational a finite value stands for; `0` for NaN and the infinities. -/
def toRat : ERat → Rat
  | fin q => q
  | _ => 0

@[simp] theorem toRat_fin (q : Rat) : (fin q).toRat = q := rfl

theorem nan_le (x : ERat) : ¬nan ≤ x := fun h => Bool.false_ne_true (by cases x <;> exact h)

theorem le_nan (x : ERat) : ¬x ≤ nan := fun h => Bool.false_ne_true (by cases x <;> exact h)

@[simp] theorem negInf_le_fin (q : Rat) : negInf ≤ fin q := rfl

@[simp] theorem fin_le_posInf (q : Rat) : fin q ≤ posInf := rfl

theorem posInf_le_fin (q : Rat) : ¬posInf ≤ fin q := Bool.false_ne_true

theorem fin_le_negInf (q : Rat) : ¬fin q ≤ negInf := Bool.false_ne_true

theorem fin_mul_negInf {k : Rat} (hk : 0 < k) : fin k * negInf = negInf := by
  show scaleInf negInf k = negInf
  simp [scaleInf, hk.ne', hk]

theorem fin_mul_negInf_of_neg {k : Rat} (hk : k < 0) : fin k * negInf = posInf := by
  show scaleInf negInf k = posInf
  simp only [scaleInf, hk.ne, not_lt_of_gt hk, if_false]
  rfl

theorem fin_mul_posInf {k : Rat} (hk : 0 < k) : fin k * posInf = posInf := by
  show scaleInf posInf k = posInf
  simp [scaleInf, hk.ne', hk]

theorem fin_mul_posInf_of_neg {k : Rat} (hk : k < 0) : fin k * posInf = negInf := by
  show scaleInf posInf k = negInf
  simp only [scaleInf, hk.ne, not_lt_of_gt hk, if_false]
  rfl

/-! The smaller and larger of two values with an infinity: NaN apart, the order of the
extended rationals. -/

theorem min_negInf_fin (q : Rat) : Scalar.min negInf (fin q) = negInf := rfl

theorem min_negInf_posInf : Scalar.min negInf posInf = negInf := rfl

theorem min_fin_posInf (q : Rat) : Scalar.min (fin q) posInf = fin q := rfl

theorem min_posInf_fin (q : Rat) : Scalar.min posInf (fin q) = fin q := rfl

theorem min_posInf_negInf : Scalar.min posInf negInf = negInf := rfl

theorem min_fin_negInf (q : Rat) : Scalar.min (fin q) negInf = negInf := rfl

theorem max_negInf_fin (q : Rat) : Scalar.max negInf (fin q) = fin q := rfl

theorem max_negInf_posInf : Scalar.max negInf posInf = posInf := rfl

theorem max_fin_posInf (q : Rat) : Scalar.max (fin q) posInf = posInf := rfl

theorem max_posInf_fin (q : Rat) : Scalar.max posInf (fin q) = posInf := rfl

theorem max_posInf_negInf : Scalar.max posInf negInf = posInf := rfl

theorem max_fin_negInf (q : Rat) : Scalar.max (fin q) negInf = fin q := rfl

/-- A sum of values below two finite values is below their sum. -/
theorem add_le_fin {a b : ERat} {p q : Rat} (ha : a ≤ fin p) (hb : b ≤ fin q) :
    a + b ≤ fin (p + q) := by
  cases a with
  | nan => exact absurd ha (nan_le _)
  | posInf => exact absurd ha (posInf_le_fin _)
  | negInf =>
    cases b with
    | nan => exact absurd hb (nan_le _)
    | posInf => exact absurd hb (posInf_le_fin _)
    | negInf => exact negInf_le_fin _
    | fin q' => exact negInf_le_fin _
  | fin p' =>
    cases b with
    | nan => exact absurd hb (nan_le _)
    | posInf => exact absurd hb (posInf_le_fin _)
    | negInf => exact negInf_le_fin _
    | fin q' =>
      rw [fin_add_fin, fin_le_fin] at *
      exact add_le_add ha hb

theorem fin_le_add {a b : ERat} {p q : Rat} (ha : fin p ≤ a) (hb : fin q ≤ b) :
    fin (p + q) ≤ a + b := by
  cases a with
  | nan => exact absurd ha (le_nan _)
  | negInf => exact absurd ha (fin_le_negInf _)
  | posInf =>
    cases b with
    | nan => exact absurd hb (le_nan _)
    | negInf => exact absurd hb (fin_le_negInf _)
    | posInf => exact fin_le_posInf _
    | fin q' => exact fin_le_posInf _
  | fin p' =>
    cases b with
    | nan => exact absurd hb (le_nan _)
    | negInf => exact absurd hb (fin_le_negInf _)
    | posInf => exact fin_le_posInf _
    | fin q' =>
      rw [fin_add_fin, fin_le_fin] at *
      exact add_le_add ha hb

/-- The bounds of `k · x` for `x` between `l` and `u`, as `Row.activityBounds` takes them. -/
theorem bracket_mul {k x : Rat} (hk : k ≠ 0) {l u : ERat} (hl : l ≤ fin x) (hu : fin x ≤ u) :
    Scalar.min (fin k * l) (fin k * u) ≤ fin (k * x) ∧
      fin (k * x) ≤ Scalar.max (fin k * l) (fin k * u) := by
  cases l with
  | nan => exact absurd hl (nan_le _)
  | posInf => exact absurd hl (posInf_le_fin _)
  | negInf =>
    cases u with
    | nan => exact absurd hu (le_nan _)
    | negInf => exact absurd hu (fin_le_negInf _)
    | fin b =>
      rw [fin_le_fin] at hu
      rcases lt_or_gt_of_ne hk with hk | hk
      · rw [fin_mul_negInf_of_neg hk, fin_mul_fin, min_posInf_fin, max_posInf_fin, fin_le_fin]
        exact ⟨mul_le_mul_of_nonpos_left hu hk.le, fin_le_posInf _⟩
      · rw [fin_mul_negInf hk, fin_mul_fin, min_negInf_fin, max_negInf_fin, fin_le_fin]
        exact ⟨negInf_le_fin _, mul_le_mul_of_nonneg_left hu hk.le⟩
    | posInf =>
      rcases lt_or_gt_of_ne hk with hk | hk
      · rw [fin_mul_negInf_of_neg hk, fin_mul_posInf_of_neg hk, min_posInf_negInf,
          max_posInf_negInf]
        exact ⟨negInf_le_fin _, fin_le_posInf _⟩
      · rw [fin_mul_negInf hk, fin_mul_posInf hk, min_negInf_posInf, max_negInf_posInf]
        exact ⟨negInf_le_fin _, fin_le_posInf _⟩
  | fin a =>
    rw [fin_le_fin] at hl
    cases u with
    | nan => exact absurd hu (le_nan _)
    | negInf => exact absurd hu (fin_le_negInf _)
    | fin b =>
      rw [fin_le_fin] at hu
      rw [fin_mul_fin, fin_mul_fin, min_fin, max_fin, fin_le_fin, fin_le_fin]
      rcases lt_or_gt_of_ne hk with hk | hk
      · exact ⟨min_le_of_right_le (mul_le_mul_of_nonpos_left hu hk.le),
          le_max_of_le_left (mul_le_mul_of_nonpos_left hl hk.le)⟩
      · exact ⟨min_le_of_left_le (mul_le_mul_of_nonneg_left hl hk.le),
          le_max_of_le_right (mul_le_mul_of_nonneg_left hu hk.le)⟩
    | posInf =>
      rcases lt_or_gt_of_ne hk with hk | hk
      · rw [fin_mul_fin, fin_mul_posInf_of_neg hk, min_fin_negInf, max_fin_negInf, fin_le_fin]
        exact ⟨negInf_le_fin _, mul_le_mul_of_nonpos_left hl hk.le⟩
      · rw [fin_mul_fin, fin_mul_posInf hk, min_fin_posInf, max_fin_posInf, fin_le_fin]
        exact ⟨mul_le_mul_of_nonneg_left hl hk.le, fin_le_posInf _⟩


/-- A big-M over an upper activity bound that brackets `t` is finite only over a finite bound. -/
theorem bigM_of_upper {hi : ERat} {t β : Rat} (ht : fin t ≤ hi)
    (hfin : Scalar.isFinite (Scalar.max (hi - fin β) Scalar.zero) = true) :
    ∃ h, t ≤ h ∧ Scalar.max (hi - fin β) Scalar.zero = fin (max (h - β) 0) := by
  cases hi with
  | nan => exact absurd ht (le_nan _)
  | negInf => exact absurd ht (fin_le_negInf t)
  | posInf => exact absurd hfin Bool.false_ne_true
  | fin h => exact ⟨h, fin_le_fin.1 ht, by rw [fin_sub_fin]; exact max_fin _ _⟩

/-- A big-M under a lower activity bound that brackets `t` is finite only over a finite bound. -/
theorem bigM_of_lower {lo : ERat} {t β : Rat} (ht : lo ≤ fin t)
    (hfin : Scalar.isFinite (Scalar.max (fin β - lo) Scalar.zero) = true) :
    ∃ l, l ≤ t ∧ Scalar.max (fin β - lo) Scalar.zero = fin (max (β - l) 0) := by
  cases lo with
  | nan => exact absurd ht (nan_le _)
  | posInf => exact absurd ht (posInf_le_fin t)
  | negInf => exact absurd hfin Bool.false_ne_true
  | fin l => exact ⟨l, fin_le_fin.1 ht, by rw [fin_sub_fin]; exact max_fin _ _⟩

@[simp] theorem infinity_eq : (Scalar.infinity : ERat) = posInf := rfl

@[simp] theorem negInfinity_eq : (Scalar.negInfinity : ERat) = negInf := rfl

/-- A Boolean as the value of a binary column. -/
def ofBool (z : Bool) : ERat := .fin (if z then 1 else 0)

end ERat

open ERat

/-! ### Arrays extended by fresh values -/

theorem getD_push_size {α : Type} (V : Array α) (x d : α) : (V.push x).getD V.size d = x := by
  simp [Array.getD]

theorem getD_push_of_lt {α : Type} {V : Array α} {i : Nat} (h : i < V.size) (x d : α) :
    (V.push x).getD i d = V.getD i d := by
  simp [Array.getD, Array.getElem_push, h, Nat.lt_succ_of_lt h]

/-! ### Rows read with rationals -/

namespace Row

/-- The summed side read with rationals, each coefficient and value through `ERat.toRat`. -/
def value (r : Row ERat) (V : Array ERat) : Rat :=
  (r.terms.map fun t => t.2.toRat * (V.getD t.1 Scalar.zero).toRat).sum

/-- Every coefficient is finite. -/
def FiniteCoefs (r : Row ERat) : Prop := ∀ t ∈ r.terms, ∃ q, t.2 = .fin q

/-- Every value the row reads is finite. -/
def FiniteAt (r : Row ERat) (V : Array ERat) : Prop :=
  ∀ t ∈ r.terms, ∃ x, V.getD t.1 Scalar.zero = .fin x

/-- The row holds exactly at `V`: no tolerance. -/
def Admits (r : Row ERat) (V : Array ERat) : Prop := r.lhs ≤ r.activity V ∧ r.activity V ≤ r.rhs

theorem foldl_add_fin (a : Rat) : ∀ qs : List Rat,
    (qs.map ERat.fin).foldl (· + ·) (fin a) = fin (a + qs.sum)
  | [] => by simp
  | q :: qs => by
    rw [List.map_cons, List.foldl_cons, fin_add_fin, foldl_add_fin (a + q) qs, List.sum_cons,
      add_assoc]

/-- With finite coefficients and values, the activity is the value. -/
theorem activity_eq_value {r : Row ERat} {V : Array ERat} (hc : r.FiniteCoefs)
    (hV : r.FiniteAt V) : r.activity V = .fin (r.value V) := by
  have hmap : (r.terms.map fun t => t.2 * V.getD t.1 Scalar.zero) =
      (r.terms.map fun t => t.2.toRat * (V.getD t.1 Scalar.zero).toRat).map ERat.fin := by
    rw [List.map_map]
    refine List.map_congr_left fun t ht => ?_
    obtain ⟨c, hc⟩ := hc t ht
    obtain ⟨x, hx⟩ := hV t ht
    simp only [Function.comp_apply, hc, hx, fin_mul_fin, toRat_fin]
  rw [activity, Scalar.sum, hmap]
  exact (foldl_add_fin 0 _).trans (by rw [zero_add]; rfl)

theorem FiniteCoefs.withBounds {r : Row ERat} (h : r.FiniteCoefs) (lhs rhs : ERat) :
    (r.withBounds lhs rhs).FiniteCoefs := h

theorem FiniteAt.withBounds {r : Row ERat} {V : Array ERat} (h : r.FiniteAt V) (lhs rhs : ERat) :
    (r.withBounds lhs rhs).FiniteAt V := h

@[simp] theorem value_withBounds (r : Row ERat) (V : Array ERat) (lhs rhs : ERat) :
    (r.withBounds lhs rhs).value V = r.value V := rfl

/-- Merging `c · v` into finite terms adds `c` times the value of `v`. -/
theorem sum_mergeTerm (V : Array ERat) (v : Nat) (c : Rat) : ∀ {ts : List (Nat × ERat)},
    (∀ t ∈ ts, ∃ q, t.2 = .fin q) →
    ((mergeTerm v (.fin c) ts).map fun t => t.2.toRat * (V.getD t.1 Scalar.zero).toRat).sum =
      (ts.map fun t => t.2.toRat * (V.getD t.1 Scalar.zero).toRat).sum +
        c * (V.getD v Scalar.zero).toRat
  | [], _ => by simp [mergeTerm]
  | (w, d) :: rest, h => by
    obtain ⟨d, rfl⟩ := h (w, _) List.mem_cons_self
    have ih := sum_mergeTerm V v c fun t ht => h t (List.mem_cons_of_mem _ ht)
    by_cases hw : w = v
    · subst hw
      -- the term on `v` absorbs the coefficient, and is dropped when it cancels
      by_cases hs : d + c = 0
      · simp only [mergeTerm, beq_self_eq_true, if_true, fin_add_fin, Scalar.zero, ofInt_eq,
          fin_beq_fin, Int.cast_zero, hs, decide_true, List.map_cons, List.sum_cons, toRat_fin]
        have hc : c = -d := by linarith
        rw [hc]
        ring
      · simp only [mergeTerm, beq_self_eq_true, if_true, fin_add_fin, Scalar.zero, ofInt_eq,
          fin_beq_fin, Int.cast_zero, hs, decide_false, Bool.false_eq_true, if_false,
          List.map_cons, List.sum_cons, toRat_fin]
        ring
    · simp only [mergeTerm, beq_iff_eq, hw, if_false, List.map_cons, List.sum_cons, ih]
      ring

theorem mergeTerm_finite (v : Nat) (c : Rat) : ∀ {ts : List (Nat × ERat)},
    (∀ t ∈ ts, ∃ q, t.2 = .fin q) → ∀ t ∈ mergeTerm v (.fin c) ts, ∃ q, t.2 = .fin q
  | [], _ => by simp [mergeTerm]
  | (w, d) :: rest, h => by
    obtain ⟨d, rfl⟩ := h (w, _) List.mem_cons_self
    have ih := mergeTerm_finite v c fun t ht => h t (List.mem_cons_of_mem _ ht)
    intro t ht
    simp only [mergeTerm] at ht
    split_ifs at ht
    · exact h t (List.mem_cons_of_mem _ ht)
    · rcases List.mem_cons.1 ht with rfl | ht
      · exact ⟨d + c, rfl⟩
      · exact h t (List.mem_cons_of_mem _ ht)
    · rcases List.mem_cons.1 ht with rfl | ht
      · exact ⟨d, rfl⟩
      · exact ih t ht

/-- The columns of merged terms: `v` and those of the terms. -/
theorem mem_mergeTerm {α : Type} [Scalar α] (v : Nat) (c : α) :
    ∀ {ts : List (Nat × α)} {t : Nat × α},
    t ∈ mergeTerm v c ts → t.1 = v ∨ ∃ t' ∈ ts, t'.1 = t.1
  | [], t, ht => by
    simp only [mergeTerm, List.mem_singleton] at ht
    exact Or.inl (by rw [ht])
  | (w, d) :: rest, t, ht => by
    simp only [mergeTerm] at ht
    split_ifs at ht
    · exact Or.inr ⟨t, List.mem_cons_of_mem _ ht, rfl⟩
    · rcases List.mem_cons.1 ht with rfl | ht
      · exact Or.inr ⟨(w, d), List.mem_cons_self, rfl⟩
      · exact Or.inr ⟨t, List.mem_cons_of_mem _ ht, rfl⟩
    · rcases List.mem_cons.1 ht with rfl | ht
      · exact Or.inr ⟨(w, d), List.mem_cons_self, rfl⟩
      · obtain h | ⟨t', ht', heq⟩ := mem_mergeTerm v c ht
        · exact Or.inl h
        · exact Or.inr ⟨t', List.mem_cons_of_mem _ ht', heq⟩

/-- Adding `c · v` adds `c` times the value of `v`. -/
theorem value_addVar {r : Row ERat} (hr : r.FiniteCoefs) (V : Array ERat) (v : Nat) (c : Rat) :
    (r.addVar v (.fin c)).value V = r.value V + c * (V.getD v Scalar.zero).toRat := by
  unfold addVar
  by_cases hc : c = 0
  · subst hc
    simp [Scalar.zero]
  · simp only [Scalar.zero, ofInt_eq, Int.cast_zero, fin_beq_fin, hc, decide_false,
      Bool.false_eq_true, if_false]
    exact sum_mergeTerm V v c hr

theorem FiniteCoefs.addVar {r : Row ERat} (hr : r.FiniteCoefs) (v : Nat) (c : Rat) :
    (r.addVar v (.fin c)).FiniteCoefs := by
  unfold Row.addVar
  split
  · exact hr
  · exact mergeTerm_finite v c hr

theorem FiniteAt.addVar {r : Row ERat} {V : Array ERat} (hr : r.FiniteAt V) {v : Nat}
    (hv : ∃ x, V.getD v Scalar.zero = .fin x) (c : ERat) : (r.addVar v c).FiniteAt V := by
  unfold Row.addVar
  split
  · exact hr
  · intro t ht
    rcases mem_mergeTerm v c ht with h | ⟨t', ht', h⟩
    · rw [h]
      exact hv
    · rw [← h]
      exact hr t' ht'

/-- The columns of a row after adding `c · v`: `v` and the columns it had. -/
theorem mem_addVar {α : Type} [Scalar α] {r : Row α} {v : Nat} {c : α} {t : Nat × α}
    (ht : t ∈ (r.addVar v c).terms) : t.1 = v ∨ ∃ t' ∈ r.terms, t'.1 = t.1 := by
  unfold Row.addVar at ht
  split at ht
  · exact Or.inr ⟨t, ht, rfl⟩
  · exact mem_mergeTerm v c ht

/-! ### The activity bounds bracket the value -/

/-- Every coefficient is finite and non-zero, as `Row.addVar` keeps them. -/
def NonzeroCoefs (r : Row ERat) : Prop := ∀ t ∈ r.terms, ∃ q, q ≠ 0 ∧ t.2 = .fin q

/-- The row's columns are columns of `cols`, and `V` gives each a finite value within its bounds. -/
def Within (r : Row ERat) (cols : Array (Column ERat)) (V : Array ERat) : Prop :=
  ∀ t ∈ r.terms, ∃ col x, cols[t.1]? = some col ∧ V.getD t.1 Scalar.zero = .fin x ∧
    col.lower ≤ .fin x ∧ .fin x ≤ col.upper

theorem NonzeroCoefs.finiteCoefs {r : Row ERat} (h : r.NonzeroCoefs) : r.FiniteCoefs :=
  fun t ht => (h t ht).imp fun _ hq => hq.2

theorem Within.finiteAt {r : Row ERat} {cols : Array (Column ERat)} {V : Array ERat}
    (h : r.Within cols V) : r.FiniteAt V := fun t ht => by
  obtain ⟨_, x, -, hx, -⟩ := h t ht
  exact ⟨x, hx⟩

/-- One step of `Row.activityBounds`. -/
def boundStep {α : Type} [Scalar α] (cols : Array (Column α)) (acc : α × α) (t : Nat × α) :
    α × α :=
  match cols[t.1]? with
  | some col =>
    let a := t.2 * col.lower
    let b := t.2 * col.upper
    (acc.1 + Scalar.min a b, acc.2 + Scalar.max a b)
  | none => (Scalar.negInfinity, Scalar.infinity)

theorem activityBounds_eq {α : Type} [Scalar α] (r : Row α) (cols : Array (Column α)) :
    r.activityBounds cols = r.terms.foldl (boundStep cols) (Scalar.zero, Scalar.zero) := rfl

/-- Bounds that bracket a partial sum bracket it after more terms within their bounds. -/
theorem foldl_boundStep (cols : Array (Column ERat)) (V : Array ERat) :
    ∀ (ts : List (Nat × ERat)) (acc : ERat × ERat) (a : Rat),
      (∀ t ∈ ts, ∃ q, q ≠ 0 ∧ t.2 = .fin q) →
      (∀ t ∈ ts, ∃ col x, cols[t.1]? = some col ∧ V.getD t.1 Scalar.zero = .fin x ∧
        col.lower ≤ .fin x ∧ .fin x ≤ col.upper) →
      acc.1 ≤ .fin a → .fin a ≤ acc.2 →
      (ts.foldl (boundStep cols) acc).1 ≤
          .fin (a + (ts.map fun t => t.2.toRat * (V.getD t.1 Scalar.zero).toRat).sum) ∧
        .fin (a + (ts.map fun t => t.2.toRat * (V.getD t.1 Scalar.zero).toRat).sum) ≤
          (ts.foldl (boundStep cols) acc).2
  | [], acc, a, _, _, h₁, h₂ => by simpa using ⟨h₁, h₂⟩
  | t :: ts, acc, a, hnz, hin, h₁, h₂ => by
    obtain ⟨k, hk, hkt⟩ := hnz t List.mem_cons_self
    obtain ⟨col, x, hcol, hx, hlo, hhi⟩ := hin t List.mem_cons_self
    obtain ⟨hmin, hmax⟩ := bracket_mul hk hlo hhi
    have hstep : boundStep cols acc t =
        (acc.1 + Scalar.min (.fin k * col.lower) (.fin k * col.upper),
          acc.2 + Scalar.max (.fin k * col.lower) (.fin k * col.upper)) := by
      simp only [boundStep, hcol, hkt]
    have ih := foldl_boundStep cols V ts (boundStep cols acc t) (a + k * x)
      (fun t ht => hnz t (List.mem_cons_of_mem _ ht)) (fun t ht => hin t (List.mem_cons_of_mem _ ht))
      (by rw [hstep]; exact add_le_fin h₁ hmin) (by rw [hstep]; exact fin_le_add h₂ hmax)
    rw [List.foldl_cons, List.map_cons, List.sum_cons, hkt, hx, toRat_fin, toRat_fin, ← add_assoc]
    exact ih

/-- The activity bounds of a row bracket its value at any assignment within the bounds of its
columns. -/
theorem activityBounds_brackets {r : Row ERat} {cols : Array (Column ERat)} {V : Array ERat}
    (hnz : r.NonzeroCoefs) (hV : r.Within cols V) :
    (r.activityBounds cols).1 ≤ .fin (r.value V) ∧ .fin (r.value V) ≤ (r.activityBounds cols).2 := by
  have h := foldl_boundStep cols V r.terms (Scalar.zero, Scalar.zero) 0 hnz hV
    (fin_le_fin.2 le_rfl) (fin_le_fin.2 le_rfl)
  rw [zero_add] at h
  exact h

/-! Fresh columns and values pushed past the row's columns leave it alone. -/

section Fresh

variable {r : Row ERat} {cols : Array (Column ERat)} {V : Array ERat}

theorem Within.lt_size (h : r.Within cols V) {t : Nat × ERat} (ht : t ∈ r.terms) :
    t.1 < cols.size := by
  obtain ⟨_, _, hcol, -⟩ := h t ht
  exact (Array.getElem?_eq_some_iff.1 hcol).1

theorem Within.push_column (h : r.Within cols V) (c : Column ERat) : r.Within (cols.push c) V :=
  fun t ht => by
    obtain ⟨col, x, hcol, hx, hlo, hhi⟩ := h t ht
    exact ⟨col, x, by rw [Array.getElem?_push, if_neg (Nat.ne_of_lt (h.lt_size ht))]; exact hcol,
      hx, hlo, hhi⟩

theorem Within.push_value (h : r.Within cols V) (hsize : V.size = cols.size) (x : ERat) :
    r.Within cols (V.push x) := fun t ht => by
  obtain ⟨col, y, hcol, hy, hlo, hhi⟩ := h t ht
  exact ⟨col, y, hcol, by rw [getD_push_of_lt (hsize ▸ h.lt_size ht)]; exact hy, hlo, hhi⟩

theorem value_push (h : r.Within cols V) (hsize : V.size = cols.size) (x : ERat) :
    r.value (V.push x) = r.value V := by
  unfold value
  congr 1
  refine List.map_congr_left fun t ht => ?_
  rw [getD_push_of_lt (hsize ▸ h.lt_size ht)]

/-- The row read after fresh columns are pushed, each with a value. -/
theorem Within.push_fresh (h : r.Within cols V) (hsize : V.size = cols.size) (col : Column ERat)
    (x : ERat) : r.Within (cols.push col) (V.push x) :=
  (h.push_value hsize x).push_column col

end Fresh

end Row

/-! ### Guarded rows -/

namespace Lit

/-- The 0/1 value of a literal at `V`: the value of its column, or its complement. -/
def value (V : Array ERat) (l : Lit) : Rat :=
  if l.positive then (V.getD l.column Scalar.zero).toRat
  else 1 - (V.getD l.column Scalar.zero).toRat

/-- The column of the literal holds `0` or `1`. -/
def Binary (V : Array ERat) (l : Lit) : Prop :=
  V.getD l.column Scalar.zero = .fin 0 ∨ V.getD l.column Scalar.zero = .fin 1

theorem Binary.finite {V : Array ERat} {l : Lit} (h : l.Binary V) :
    ∃ x, V.getD l.column Scalar.zero = .fin x := by
  rcases h with h | h
  · exact ⟨0, h⟩
  · exact ⟨1, h⟩

theorem Binary.value {V : Array ERat} {l : Lit} (h : l.Binary V) :
    l.value V = 0 ∨ l.value V = 1 := by
  unfold Lit.value
  rcases h with h | h <;> cases l.positive <;> simp [h]

/-- The number of guards that do not hold. -/
def missing (V : Array ERat) (guards : List Lit) : Rat :=
  (guards.map fun l => 1 - l.value V).sum

theorem missing_eq (V : Array ERat) (guards : List Lit) :
    missing V guards = guards.length - (guards.map (Lit.value V)).sum := by
  induction guards with
  | nil => simp [missing]
  | cons l gs ih =>
    simp only [missing, List.map_cons, List.sum_cons, List.length_cons] at ih ⊢
    rw [ih]
    push_cast
    ring

theorem missing_eq_zero {V : Array ERat} {guards : List Lit}
    (h : ∀ l ∈ guards, l.value V = 1) : missing V guards = 0 :=
  List.sum_eq_zero fun x hx => by
    obtain ⟨l, hl, rfl⟩ := List.mem_map.1 hx
    rw [h l hl, sub_self]

theorem one_le_missing {V : Array ERat} {guards : List Lit} (hbin : ∀ l ∈ guards, l.Binary V)
    (h : ¬∀ l ∈ guards, l.value V = 1) : 1 ≤ missing V guards := by
  simp only [not_forall] at h
  obtain ⟨l, hl, hne⟩ := h
  have hzero : l.value V = 0 := ((hbin l hl).value).resolve_right hne
  have hnonneg : ∀ x ∈ guards.map fun l => 1 - l.value V, 0 ≤ x := fun x hx => by
    obtain ⟨l', hl', rfl⟩ := List.mem_map.1 hx
    rcases (hbin l' hl').value with h' | h' <;> rw [h'] <;> norm_num
  have hmem : 1 - l.value V ∈ guards.map fun l => 1 - l.value V := List.mem_map_of_mem hl
  have := List.single_le_sum hnonneg _ hmem
  rw [hzero, sub_zero] at this
  exact this

theorem binary_of_getD {W : Array ERat} (l : Lit) {z : Bool}
    (h : W.getD l.column Scalar.zero = ofBool z) : l.Binary W := by
  unfold Binary
  rw [h]
  cases z
  · exact Or.inl rfl
  · exact Or.inr rfl

theorem value_eq_one_iff {W : Array ERat} (l : Lit) {z : Bool}
    (h : W.getD l.column Scalar.zero = ofBool z) : l.value W = 1 ↔ z = l.positive := by
  unfold Lit.value
  rw [h]
  cases z <;> cases l.positive <;> simp [ofBool]

end Lit

namespace Lowering

section Guards

variable {α : Type} [Scalar α]

/-- One guard of `implyLe`: a positive literal `y` adds `m · y`, a negative one `-m · y` and
lowers the bound by `m`. -/
def leStep (m : α) (acc : Row α × α) (l : Lit) : Row α × α :=
  if l.positive then (acc.1.addVar l.column m, acc.2)
  else (acc.1.addVar l.column (-m), acc.2 - m)

/-- One guard of `implyGe`: a positive literal `y` adds `-m · y`, a negative one `m · y` and
raises the bound by `m`. -/
def geStep (m : α) (acc : Row α × α) (l : Lit) : Row α × α :=
  if l.positive then (acc.1.addVar l.column (-m), acc.2)
  else (acc.1.addVar l.column m, acc.2 + m)

/-- The row `implyLe` posts for `guards ⇒ expr ≤ bound` with big-M `m`. -/
def guardedLe (m : α) (expr : Row α) (bound : α) (guards : List Lit) : Row α :=
  let acc := guards.foldl (leStep m) (expr, bound + m * Scalar.ofInt guards.length)
  acc.1.withBounds Scalar.negInfinity acc.2

/-- The row `implyGe` posts for `guards ⇒ expr ≥ bound` with big-M `m`. -/
def guardedGe (m : α) (expr : Row α) (bound : α) (guards : List Lit) : Row α :=
  let acc := guards.foldl (geStep m) (expr, bound - m * Scalar.ofInt guards.length)
  acc.1.withBounds acc.2 Scalar.infinity

end Guards

theorem leStep_fin (M c : Rat) (row : Row ERat) (l : Lit) :
    leStep (.fin M) (row, .fin c) l =
      (row.addVar l.column (.fin (if l.positive then M else -M)),
        .fin (if l.positive then c else c - M)) := by
  unfold leStep
  cases l.positive <;> simp

theorem geStep_fin (M c : Rat) (row : Row ERat) (l : Lit) :
    geStep (.fin M) (row, .fin c) l =
      (row.addVar l.column (.fin (if l.positive then -M else M)),
        .fin (if l.positive then c else c + M)) := by
  unfold geStep
  cases l.positive <;> simp

/-- Folding the guards of `implyLe`: each literal raises the row's value less its bound by `M`
times the literal's value. -/
theorem foldl_leStep (M : Rat) {V : Array ERat} :
    ∀ (gs : List Lit) (row : Row ERat) (c : Rat), row.FiniteCoefs → row.FiniteAt V →
      (∀ l ∈ gs, ∃ x, V.getD l.column Scalar.zero = .fin x) →
      ∃ row' c', gs.foldl (leStep (.fin M)) (row, .fin c) = (row', .fin c') ∧
        row'.FiniteCoefs ∧ row'.FiniteAt V ∧
        row'.value V - c' = row.value V - c + M * (gs.map (Lit.value V)).sum
  | [], row, c, hc, hV, _ => ⟨row, c, rfl, hc, hV, by simp⟩
  | l :: gs, row, c, hc, hV, hgs => by
    obtain ⟨row', c', hfold, hc', hV', hval⟩ := foldl_leStep M gs _ _ (hc.addVar l.column _)
      (hV.addVar (hgs l List.mem_cons_self) _) fun l' hl' => hgs l' (List.mem_cons_of_mem _ hl')
    refine ⟨row', c', by rw [List.foldl_cons, leStep_fin]; exact hfold, hc', hV', ?_⟩
    rw [hval, Row.value_addVar hc, List.map_cons, List.sum_cons]
    unfold Lit.value
    cases l.positive <;> simp only [Bool.false_eq_true, if_false, if_true] <;> ring

/-- Folding the guards of `implyGe`: each literal lowers the row's value less its bound by `M`
times the literal's value. -/
theorem foldl_geStep (M : Rat) {V : Array ERat} :
    ∀ (gs : List Lit) (row : Row ERat) (c : Rat), row.FiniteCoefs → row.FiniteAt V →
      (∀ l ∈ gs, ∃ x, V.getD l.column Scalar.zero = .fin x) →
      ∃ row' c', gs.foldl (geStep (.fin M)) (row, .fin c) = (row', .fin c') ∧
        row'.FiniteCoefs ∧ row'.FiniteAt V ∧
        row'.value V - c' = row.value V - c - M * (gs.map (Lit.value V)).sum
  | [], row, c, hc, hV, _ => ⟨row, c, rfl, hc, hV, by simp⟩
  | l :: gs, row, c, hc, hV, hgs => by
    obtain ⟨row', c', hfold, hc', hV', hval⟩ := foldl_geStep M gs _ _ (hc.addVar l.column _)
      (hV.addVar (hgs l List.mem_cons_self) _) fun l' hl' => hgs l' (List.mem_cons_of_mem _ hl')
    refine ⟨row', c', by rw [List.foldl_cons, geStep_fin]; exact hfold, hc', hV', ?_⟩
    rw [hval, Row.value_addVar hc, List.map_cons, List.sum_cons]
    unfold Lit.value
    cases l.positive <;> simp only [Bool.false_eq_true, if_false, if_true] <;> ring

section Admits

variable {expr : Row ERat} {V : Array ERat} {gs : List Lit}

/-- The row of `guards ⇒ expr ≤ β`, read exactly: the value is at most `β` plus `M` for each
guard that does not hold. -/
theorem guardedLe_admits (hc : expr.FiniteCoefs) (hV : expr.FiniteAt V)
    (hgs : ∀ l ∈ gs, l.Binary V) (M β : Rat) :
    (guardedLe (.fin M) expr (.fin β) gs).Admits V ↔
      expr.value V ≤ β + M * Lit.missing V gs := by
  obtain ⟨row', c', hfold, hc', hV', hval⟩ := foldl_leStep M gs expr (β + M * gs.length) hc hV
    fun l hl => (hgs l hl).finite
  have hstart : (.fin β + .fin M * Scalar.ofInt gs.length : ERat) = .fin (β + M * gs.length) := by
    simp
  have hrow : guardedLe (.fin M) expr (.fin β) gs = row'.withBounds .negInf (.fin c') := by
    unfold guardedLe
    rw [hstart, hfold]
    rfl
  have hact : (row'.withBounds .negInf (.fin c')).activity V = .fin (row'.value V) :=
    Row.activity_eq_value (hc'.withBounds _ _) (hV'.withBounds _ _)
  rw [hrow, Row.Admits, hact]
  simp only [Row.withBounds, negInf_le_fin, fin_le_fin, true_and, Lit.missing_eq]
  constructor <;> intro h <;> linarith

/-- The row of `guards ⇒ expr ≥ β`, read exactly: the value is at least `β` less `M` for each
guard that does not hold. -/
theorem guardedGe_admits (hc : expr.FiniteCoefs) (hV : expr.FiniteAt V)
    (hgs : ∀ l ∈ gs, l.Binary V) (M β : Rat) :
    (guardedGe (.fin M) expr (.fin β) gs).Admits V ↔
      β - M * Lit.missing V gs ≤ expr.value V := by
  obtain ⟨row', c', hfold, hc', hV', hval⟩ := foldl_geStep M gs expr (β - M * gs.length) hc hV
    fun l hl => (hgs l hl).finite
  have hstart : (.fin β - .fin M * Scalar.ofInt gs.length : ERat) = .fin (β - M * gs.length) := by
    simp
  have hrow : guardedGe (.fin M) expr (.fin β) gs = row'.withBounds (.fin c') .posInf := by
    unfold guardedGe
    rw [hstart, hfold]
    rfl
  have hact : (row'.withBounds (.fin c') .posInf).activity V = .fin (row'.value V) :=
    Row.activity_eq_value (hc'.withBounds _ _) (hV'.withBounds _ _)
  rw [hrow, Row.Admits, hact]
  simp only [Row.withBounds, fin_le_posInf, fin_le_fin, and_true, Lit.missing_eq]
  constructor <;> intro h <;> linarith

/-- With a big-M that covers the value's range above `β`, the row of `guards ⇒ expr ≤ β` is the
implication. -/
theorem guardedLe_admits_iff (hc : expr.FiniteCoefs) (hV : expr.FiniteAt V)
    (hgs : ∀ l ∈ gs, l.Binary V) {β h : Rat} (ht : expr.value V ≤ h) :
    (guardedLe (.fin (max (h - β) 0)) expr (.fin β) gs).Admits V ↔
      ((∀ l ∈ gs, l.value V = 1) → expr.value V ≤ β) := by
  rw [guardedLe_admits hc hV hgs]
  by_cases hall : ∀ l ∈ gs, l.value V = 1
  · rw [Lit.missing_eq_zero hall, mul_zero, add_zero]
    exact ⟨fun h _ => h, fun h => h hall⟩
  · -- a guard fails: the row is slack
    have hk := Lit.one_le_missing hgs hall
    have hM : h - β ≤ max (h - β) 0 := le_max_left _ _
    have hM₀ : 0 ≤ max (h - β) 0 := le_max_right _ _
    refine ⟨fun _ hall' => absurd hall' hall, fun _ => ?_⟩
    nlinarith

/-- With a big-M that covers the value's range below `β`, the row of `guards ⇒ expr ≥ β` is the
implication. -/
theorem guardedGe_admits_iff (hc : expr.FiniteCoefs) (hV : expr.FiniteAt V)
    (hgs : ∀ l ∈ gs, l.Binary V) {β lo : Rat} (ht : lo ≤ expr.value V) :
    (guardedGe (.fin (max (β - lo) 0)) expr (.fin β) gs).Admits V ↔
      ((∀ l ∈ gs, l.value V = 1) → β ≤ expr.value V) := by
  rw [guardedGe_admits hc hV hgs]
  by_cases hall : ∀ l ∈ gs, l.value V = 1
  · rw [Lit.missing_eq_zero hall, mul_zero, sub_zero]
    exact ⟨fun h _ => h, fun h => h hall⟩
  · -- a guard fails: the row is slack
    have hk := Lit.one_le_missing hgs hall
    have hM : β - lo ≤ max (β - lo) 0 := le_max_left _ _
    have hM₀ : 0 ≤ max (β - lo) 0 := le_max_right _ _
    refine ⟨fun _ hall' => absurd hall' hall, fun _ => ?_⟩
    nlinarith

end Admits

end Lowering

end MipLowering
