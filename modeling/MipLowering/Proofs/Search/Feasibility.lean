import MipLowering.Proofs.Search.ExactSolutions
import MipLowering.Proofs.Lowering.SoundBounds

/-!
# The feasibility check against the enumeration

`FlatModel.isFeasible` checks an assignment against the bounds of each column widened by the
tolerance, against integrality within the tolerance, and against every row. The enumeration lists
the assignments whose columns take their values (`Column.Takes`): an integer within the bounds,
and in the value list when there is one, on an integral column, and the fixed value on a
continuous one. On assignments of that shape (`FlatModel.OnGrid`) and columns whose integral
bounds are integers, the check admits exactly the values the columns take, except that it never
reads a value list. So the solutions an enumerable model lists are the assignments the check
accepts whose values lie in their lists (`FlatModel.isFeasible_iff_mem_allSolutions`): with no
value lists the check and the enumeration agree, and a value between two listed ones passes the
check without being a solution.

## Main definitions

* `MipLowering.FlatModel.OnGrid` — an integer on each integral column and the fixed value on each
  continuous one.
* `MipLowering.FlatModel.Listed` — the value of every integral column with a value list is in it.

## Main results

* `MipLowering.Column.takes_iff_admits` — on such values, a column takes what the check admits
  and its list holds.
* `MipLowering.FlatModel.isFeasible_eq_true_iff` — the check, column by column and row by row.
* `MipLowering.FlatModel.isFeasible_iff_mem_allSolutions`.
-/

namespace MipLowering

open Search ERat

/-! ### The tolerance on whole values -/

namespace ERat

/-- An integer is at most an integer `b` plus the tolerance exactly when it is at most `b`. -/
theorem le_fin_add_tolerance_iff (z b : Int) : fin (z : ℚ) ≤ fin (b : ℚ) + tolerance ↔ z ≤ b := by
  rw [tolerance_eq, fin_add_fin, fin_le_fin, ← sub_le_iff_le_add]
  exact intCast_sub_le_iff (by norm_num) (by norm_num) z b

/-- An integer is within the tolerance of its rounding. -/
theorem abs_sub_round_intCast_le (z : Int) :
    Scalar.abs (fin (z : ℚ) - Scalar.round (fin (z : ℚ))) ≤ tolerance := by
  have hround : Scalar.round (fin (z : ℚ)) = fin (z : ℚ) := by
    show fin ((roundHalfAway (z : ℚ) : ℤ) : ℚ) = _
    rw [roundHalfAway_intCast]
  have habs : Scalar.abs (fin 0) = fin 0 := by
    show fin (if (0 : ℚ) ≤ 0 then 0 else -0) = _
    simp
  rw [hround, fin_sub_fin, sub_self, habs, tolerance_eq, fin_le_fin]
  norm_num

end ERat

/-! ### One column -/

namespace Column

variable {c : Column ERat}

/-- An integral column with integer bounds admits an integer exactly when it lies within the
bounds. -/
theorem admits_intCast_iff (hc : c.isIntegral = true) {a b : Int} (hlo : c.lower = fin a)
    (hhi : c.upper = fin b) (z : Int) :
    c.admits (fin (z : ℚ)) tolerance = true ↔ a ≤ z ∧ z ≤ b := by
  simp only [admits, hlo, hhi, hc, fin_sub_tolerance_le_iff, le_fin_add_tolerance_iff,
    abs_sub_round_intCast_le, decide_true, Bool.not_true, Bool.false_or, Bool.and_true,
    Bool.and_eq_true, decide_eq_true_eq]

/-- A continuous column fixed to one value, which is then not NaN, admits it. -/
theorem admits_lower (hc : c.isIntegral = false) (hfix : (c.lower == c.upper) = true) :
    c.admits c.lower tolerance = true := by
  have hint : (!c.isIntegral || decide (Scalar.abs (c.lower - Scalar.round c.lower) ≤ tolerance))
      = true := by rw [hc]; rfl
  rw [admits, hint, Bool.and_true, Bool.and_eq_true, decide_eq_true_eq, decide_eq_true_eq,
    tolerance_eq]
  -- the fixed value is a rational or an infinity, and the upper bound is the same value
  obtain ⟨name, kind, lower, upper, values⟩ := c
  change ERat.beq lower upper = true at hfix
  cases lower <;> cases upper <;> simp_all [ERat.beq] <;> exact ⟨rfl, rfl⟩

/-- On an integer for an integral column with integer bounds, and on the fixed value of a
continuous column, the column takes the value exactly when the check admits it and, for an
integral column, its value list holds it. -/
theorem takes_iff_admits
    (hint : c.isIntegral = true → ∃ a b : Int, c.lower = fin a ∧ c.upper = fin b)
    (hfix : c.isIntegral = false → (c.lower == c.upper) = true) {x : ERat}
    (hx : if c.isIntegral then ∃ z : Int, x = fin z else x = c.lower) :
    c.Takes x ↔ c.admits x tolerance = true ∧
      (c.isIntegral = true → ∀ vs, c.values = some vs → ∃ z : Int, x = fin z ∧ z ∈ vs) := by
  unfold Takes
  cases hc : c.isIntegral with
  | true =>
    rw [if_pos rfl]
    rw [hc, if_pos rfl] at hx
    obtain ⟨z, rfl⟩ := hx
    obtain ⟨a, b, hlo, hhi⟩ := hint hc
    rw [admits_intCast_iff hc hlo hhi, hlo, hhi]
    constructor
    · rintro ⟨z', hz, hle, hge, hvs⟩
      obtain rfl : z = z' := by exact_mod_cast ERat.fin.inj hz
      exact ⟨⟨by exact_mod_cast fin_le_fin.1 hle, by exact_mod_cast fin_le_fin.1 hge⟩,
        fun _ vs hv => ⟨z, rfl, hvs vs hv⟩⟩
    · rintro ⟨⟨hle, hge⟩, hvs⟩
      refine ⟨z, rfl, fin_le_fin.2 (by exact_mod_cast hle), fin_le_fin.2 (by exact_mod_cast hge),
        fun vs hv => ?_⟩
      obtain ⟨z', hz, hmem⟩ := hvs rfl vs hv
      obtain rfl : z = z' := by exact_mod_cast ERat.fin.inj hz
      exact hmem
  | false =>
    rw [if_neg Bool.false_ne_true]
    rw [hc, if_neg Bool.false_ne_true] at hx
    subst hx
    exact iff_of_true rfl ⟨admits_lower hc (hfix hc), fun h => absurd h Bool.false_ne_true⟩

end Column

/-! ### The whole model -/

namespace FlatModel

variable {m : FlatModel ERat}

/-- An assignment of the shape the enumeration lists: one value per column, an integer on each
integral column and the fixed value on each continuous one. -/
def OnGrid (m : FlatModel ERat) (v : Array ERat) : Prop :=
  v.size = m.columns.size ∧ ∀ (i : Nat) (c : Column ERat), m.columns[i]? = some c →
    ∃ x, v[i]? = some x ∧ if c.isIntegral then ∃ z : Int, x = .fin z else x = c.lower

/-- The value of every integral column with a value list is in the list. -/
def Listed (m : FlatModel ERat) (v : Array ERat) : Prop :=
  ∀ (i : Nat) (c : Column ERat) (vs : List Int), m.columns[i]? = some c →
    c.isIntegral = true → c.values = some vs → ∃ z : Int, v[i]? = some (.fin z) ∧ z ∈ vs

/-- The rows an assignment violates are none exactly when it satisfies every row. -/
theorem violatedRows_eq_nil_iff (v : Array ERat) (tol : ERat) :
    m.violatedRows v tol = [] ↔ ∀ r ∈ m.rows, r.isSatisfied v tol = true := by
  have hlen : m.rows.toList.length ≤ (List.range m.rows.size).length := by simp
  -- the rows are the second components of the numbered rows
  have hmap := List.map_snd_zip hlen
  have hsat : ∀ p : Nat × Row ERat,
      (if p.2.isSatisfied v tol then none else some p.1) = none ↔ p.2.isSatisfied v tol = true := by
    intro p
    split <;> simp_all
  rw [violatedRows, List.filterMap_eq_nil_iff]
  constructor
  · intro h r hr
    rw [← Array.mem_toList_iff, ← hmap, List.mem_map] at hr
    obtain ⟨p, hp, rfl⟩ := hr
    exact (hsat p).1 (h p hp)
  · intro h p hp
    refine (hsat p).2 (h p.2 ?_)
    rw [← Array.mem_toList_iff, ← hmap]
    exact List.mem_map_of_mem hp

/-- The check, column by column and row by row. -/
theorem isFeasible_eq_true_iff (v : Array ERat) (tol : ERat) :
    m.isFeasible v tol = true ↔ v.size = m.columns.size ∧
      (∀ (i : Nat) (c : Column ERat) (x : ERat), m.columns[i]? = some c → v[i]? = some x →
        c.admits x tol = true) ∧
      ∀ r ∈ m.rows, r.isSatisfied v tol = true := by
  -- a pair of the zipped lists is a column and a value at one position
  have hzip : (∀ p ∈ m.columns.toList.zip v.toList, p.1.admits p.2 tol = true) ↔
      ∀ (i : Nat) (c : Column ERat) (x : ERat), m.columns[i]? = some c → v[i]? = some x →
        c.admits x tol = true := by
    constructor
    · intro h i c x hc hx
      refine h (c, x) (List.mem_iff_getElem?.2 ⟨i, ?_⟩)
      rw [List.getElem?_zip_eq_some, Array.getElem?_toList, Array.getElem?_toList]
      exact ⟨hc, hx⟩
    · intro h p hp
      obtain ⟨i, hi⟩ := List.mem_iff_getElem?.1 hp
      rw [List.getElem?_zip_eq_some, Array.getElem?_toList, Array.getElem?_toList] at hi
      exact h i p.1 p.2 hi.1 hi.2
  rw [isFeasible, Bool.and_eq_true, Bool.and_eq_true, beq_iff_eq, List.all_eq_true, hzip,
    List.isEmpty_iff, violatedRows_eq_nil_iff, and_assoc]

/-- On assignments of the shape the enumeration lists, the solutions of an enumerable model are
the assignments the check accepts whose values lie in their lists. The model is searchable, its
value lists have no repeats, every column can be enumerated, and the integral columns have
integer bounds and list integers within `2^53` in magnitude, which doubles hold. -/
theorem isFeasible_iff_mem_allSolutions (m : FlatModel ERat) (hm : m.Searchable)
    (hvals : ∀ c ∈ m.columns, ∀ vs, c.values = some vs → vs.Nodup)
    (hen : ∀ c ∈ m.columns, ¬c.Unenumerable) (hr : ∀ c ∈ m.columns, c.InDoubleRange)
    (hint : ∀ c ∈ m.columns, c.isIntegral = true → ∃ a b : Int, c.lower = .fin a ∧ c.upper = .fin b)
    (v : Array ERat) (hv : m.OnGrid v) :
    ∃ S, m.allSolutions {} = .ok S ∧ (v ∈ S ↔ m.isFeasible v tolerance = true ∧ m.Listed v) := by
  obtain ⟨S, hS, -, hmem, -⟩ :=
    allSolutions_of_enumerable hm hvals hen (fun c hc => (hr c hc).inWordRange) {}
  refine ⟨S, hS, ?_⟩
  rw [hmem, isFeasible_eq_true_iff, IsSolution]
  obtain ⟨hsize, hgrid⟩ := hv
  -- column by column, taking a value is being admitted with the value in its list
  have hcol : ∀ (i : Nat) (c : Column ERat) (x : ERat), m.columns[i]? = some c → v[i]? = some x →
      (c.Takes x ↔ c.admits x tolerance = true ∧
        (c.isIntegral = true → ∀ vs, c.values = some vs → ∃ z : Int, x = .fin z ∧ z ∈ vs)) := by
    intro i c x hc hx
    have hmemc : c ∈ m.columns := Array.mem_of_getElem? hc
    obtain ⟨x', hx', hshape⟩ := hgrid i c hc
    rw [hx, Option.some.injEq] at hx'
    subst hx'
    refine Column.takes_iff_admits (hint c hmemc) (fun hci => ?_) hshape
    have hnot := hen c hmemc
    unfold Column.Unenumerable at hnot
    rw [if_neg (by rw [hci]; exact Bool.false_ne_true)] at hnot
    exact Bool.not_eq_false _ ▸ hnot
  constructor
  · rintro ⟨-, htakes, hrows⟩
    refine ⟨⟨hsize, fun i c x hc hx => ?_, hrows⟩, fun i c vs hc hci hvs => ?_⟩
    · obtain ⟨x', hx', ht⟩ := htakes i c hc
      rw [hx, Option.some.injEq] at hx'
      subst hx'
      exact ((hcol i c x hc hx).1 ht).1
    · obtain ⟨x, hx, ht⟩ := htakes i c hc
      obtain ⟨z, rfl, hz⟩ := ((hcol i c x hc hx).1 ht).2 hci vs hvs
      exact ⟨z, hx, hz⟩
  · rintro ⟨⟨-, hadm, hrows⟩, hlisted⟩
    refine ⟨hsize, fun i c hc => ?_, hrows⟩
    obtain ⟨x, hx, -⟩ := hgrid i c hc
    refine ⟨x, hx, (hcol i c x hc hx).2 ⟨hadm i c x hc hx, fun hci vs hvs => ?_⟩⟩
    obtain ⟨z, hz, hmem⟩ := hlisted i c vs hc hci hvs
    rw [hx, Option.some.injEq] at hz
    exact ⟨z, hz, hmem⟩

/-- One integer column over `[0, 2]` that lists the values `0` and `2`. -/
def listedModel : FlatModel ERat where
  columns := #[⟨"x", .integer, .fin 0, .fin 2, some [0, 2]⟩]
  rows := #[]

theorem listedModel_searchable : listedModel.Searchable where
  decisions_nodup := List.nodup_nil
  decisions_lt := fun _ h => absurd h List.not_mem_nil
  terms_lt := by simp [listedModel]

/-- The one column of the model. -/
theorem listedModel_column {i : Nat} {c : Column ERat} (hc : listedModel.columns[i]? = some c) :
    i = 0 ∧ c = ⟨"x", .integer, .fin 0, .fin 2, some [0, 2]⟩ := by
  have hi : i = 0 := by
    have := (Array.getElem?_eq_some_iff.1 hc).1
    simp [listedModel] at this
    omega
  subst hi
  simp only [listedModel, List.getElem?_toArray, List.getElem?_cons_zero, Option.some.injEq] at hc
  exact ⟨rfl, hc.symm⟩

/-- The value `1`, between the listed values, passes the check without being a solution. -/
theorem listedModel_hole_passes_check :
    ∃ S, listedModel.allSolutions {} = .ok S ∧ #[.fin 1] ∉ S ∧
      listedModel.isFeasible #[.fin 1] tolerance = true := by
  have hcols : ∀ c ∈ listedModel.columns, c = ⟨"x", .integer, .fin 0, .fin 2, some [0, 2]⟩ := by
    simp [listedModel]
  have hgrid : listedModel.OnGrid #[.fin 1] := by
    refine ⟨rfl, fun i c hc => ?_⟩
    obtain ⟨rfl, rfl⟩ := listedModel_column hc
    exact ⟨.fin 1, rfl, by simp [Column.isIntegral]; exact ⟨1, rfl⟩⟩
  obtain ⟨S, hS, hmem⟩ := isFeasible_iff_mem_allSolutions listedModel listedModel_searchable
    (fun c hc vs hvs => by rw [hcols c hc] at hvs; cases hvs; decide)
    (fun c hc => by rw [hcols c hc]; simp [Column.Unenumerable, Column.isIntegral])
    (fun c hc => by rw [hcols c hc]; simp [Column.InDoubleRange])
    (fun c hc _ => ⟨0, 2, by rw [hcols c hc]; rfl, by rw [hcols c hc]; rfl⟩)
    #[.fin 1] hgrid
  -- `1` is not listed, but the check admits it: it lies within the bounds
  have hnot : ¬listedModel.Listed #[.fin 1] := by
    intro h
    obtain ⟨z, hz, hzmem⟩ := h 0 _ [0, 2] rfl rfl rfl
    simp only [List.getElem?_toArray, List.getElem?_cons_zero, Option.some.injEq] at hz
    obtain rfl : z = 1 := by exact_mod_cast (ERat.fin.inj hz).symm
    simp at hzmem
  have hfeas : listedModel.isFeasible #[.fin 1] tolerance = true := by
    rw [isFeasible_eq_true_iff]
    refine ⟨rfl, fun i c x hc hx => ?_, fun r hr => by simp [listedModel] at hr⟩
    obtain ⟨rfl, rfl⟩ := listedModel_column hc
    simp only [List.getElem?_toArray, List.getElem?_cons_zero, Option.some.injEq] at hx
    subst hx
    exact (Column.admits_intCast_iff rfl rfl rfl 1).2 ⟨by decide, by decide⟩
  exact ⟨S, hS, fun h => hnot (hmem.1 h).2, hfeas⟩

end FlatModel

end MipLowering
