import MipLowering.Proofs.Lowering.Flows

/-!
# Integer variables over listed values

An integer variable given by a list of values stores the list sorted, its repeats erased
(`sortedValues`), and takes its first and last stored value, the least and the greatest listed
one, as its bounds. Lowering it adds the integer column `x{id}` over these bounds. When the stored
values have no holes (consecutive values differ by `1`), that column is all. Otherwise the column
also stores the values, each value `v` gets a binary `x{id}=={v}`, one row makes the binaries sum
to `1` and another makes `x` the sum of the values weighted by their binaries.

Either way, read with rationals at a point that gives the new columns integer values within their
bounds (the stored value list aside), the added rows hold exactly when `x` is a listed value and
every binary is on exactly when `x` is its value (`Lowering.encodeIntVar_values_spec`). So the
values `x` takes are the listed ones, each with one setting of the binaries, on both paths
(`Builder.intVarValues_domain_exact`).

## Main definitions

* `MipLowering.sortedValues` — the values an integer variable stores.
* `MipLowering.intColumn`, `MipLowering.valueColumn` — the column of the variable and the binary
  of a value.
* `MipLowering.valueCells` — the binaries of the values, with their columns.
* `MipLowering.IntegralFrom` — integer values within bounds from a column on.
* `MipLowering.Lowering.oneHotRow`, `MipLowering.Lowering.linkRow` — the two rows of the binaries.

## Main results

* `MipLowering.Lowering.encodeIntVar_values_spec` — the columns and rows added, read exactly.
* `MipLowering.Builder.intVarValues_domain_exact`.
-/

namespace MipLowering

open ERat

/-! ### Stored values -/

/-- The values an integer variable stores for a value list: the list sorted, its repeats erased,
as `Builder.derive` stores them. -/
def sortedValues (vs : List Int) : List Int := (vs.mergeSort (· ≤ ·)).eraseReps

section Sorted

variable {vs : List Int}

@[simp] theorem mem_sortedValues {z : Int} : z ∈ sortedValues vs ↔ z ∈ vs := by
  rw [sortedValues, FlowBounds.mem_eraseReps, List.mem_mergeSort]

theorem pairwise_lt_sortedValues (vs : List Int) : (sortedValues vs).Pairwise (· < ·) :=
  pairwise_lt_eraseReps_of_pairwise (List.pairwise_mergeSort' _ vs)

theorem pairwise_sortedValues (vs : List Int) : (sortedValues vs).Pairwise (· ≤ ·) :=
  (pairwise_lt_sortedValues vs).imp le_of_lt

theorem nodup_sortedValues (vs : List Int) : (sortedValues vs).Nodup :=
  nodup_eraseReps_mergeSort vs

theorem sortedValues_ne_nil (hvs : vs ≠ []) : sortedValues vs ≠ [] := by
  obtain ⟨v, hv⟩ := List.exists_mem_of_ne_nil vs hvs
  exact List.ne_nil_of_mem (mem_sortedValues.2 hv)

/-- The first and the last stored value are the least and the greatest listed value. -/
theorem sortedValues_bounds {lo hi : Int} (hlo : (sortedValues vs).head? = some lo)
    (hhi : (sortedValues vs).getLast? = some hi) :
    lo ∈ vs ∧ hi ∈ vs ∧ ∀ v ∈ vs, lo ≤ v ∧ v ≤ hi := by
  obtain ⟨rest, hD⟩ := List.head?_eq_some_iff.1 hlo
  have hsorted := pairwise_sortedValues vs
  rw [hD] at hsorted hhi
  rw [List.getLast?_eq_getLast_of_ne_nil (List.cons_ne_nil lo rest), Option.some.injEq] at hhi
  refine ⟨mem_sortedValues.1 (hD ▸ List.mem_cons_self),
    mem_sortedValues.1 (hD ▸ hhi ▸ List.getLast_mem _), fun v hv => ?_⟩
  have hv' : v ∈ lo :: rest := hD ▸ mem_sortedValues.2 hv
  refine ⟨?_, hhi ▸ hsorted.rel_getLast hv'⟩
  rcases List.mem_cons.1 hv' with rfl | hr
  · exact le_rfl
  · exact List.rel_of_pairwise_cons hsorted hr

/-- A value list is stored sorted without repeats, its first and last value as the bounds. -/
theorem derive_intVar_some (b : Builder ERat) (lower upper : Int) (hvs : vs ≠ []) :
    ∃ lo hi, (sortedValues vs).head? = some lo ∧ (sortedValues vs).getLast? = some hi ∧
      b.derive (.intVar lower upper (some vs)) =
        .ok (.intVar lo hi (some (sortedValues vs)), .fin lo, .fin hi, false) := by
  obtain ⟨lo, rest, hD⟩ := List.exists_cons_of_ne_nil (sortedValues_ne_nil hvs)
  have hlo : (sortedValues vs).head? = some lo := by
    rw [hD]
    rfl
  have hhi : (sortedValues vs).getLast? =
      some ((lo :: rest).getLast (List.cons_ne_nil lo rest)) := by
    rw [hD, List.getLast?_eq_getLast_of_ne_nil]
  obtain ⟨hlo_mem, -, hbetween⟩ := sortedValues_bounds hlo hhi
  refine ⟨lo, _, hlo, hhi, ?_⟩
  -- the bounds pass their check: the first value is at most the last
  have hcheck : checkBounds (Scalar.ofInt lo : ERat)
      (Scalar.ofInt ((lo :: rest).getLast (List.cons_ne_nil lo rest))) = .ok () := by
    simp only [checkBounds, ofInt_eq, fin_lt_fin, Int.cast_lt, not_lt.2 (hbetween lo hlo_mem).2,
      decide_false, Bool.or_false]
    rfl
  unfold sortedValues at hD
  simp only [Builder.derive, hD, List.head?_cons,
    List.getLast?_eq_getLast_of_ne_nil (List.cons_ne_nil lo rest), pure_bind, hcheck, sortedValues]
  rfl

end Sorted

/-! ### The columns of an integer variable -/

/-- The column `x{id}` of an integer variable over `[lo, hi]`; with holes in its stored values
`D`, it also stores them. -/
def intColumn (id : Nat) (lo hi : Int) (D : List Int) : Column ERat :=
  ⟨(ColumnName.var id).render, .integer, .fin lo, .fin hi,
    if Lowering.contiguous D then none else some D⟩

/-- The binary `x{id}=={v}` of value `v` of integer variable `id`. -/
def valueColumn (id : Nat) (v : Int) : Column ERat :=
  ⟨(ColumnName.value id v).render, .binary, Scalar.zero, Scalar.one, none⟩

/-- The binaries of the stored values `D` of a variable whose column is `x`, each value with its
column: none when the values have no holes, else one per value, in the columns after `x`. -/
def valueCells (x : Nat) (D : List Int) : List (Int × Nat) :=
  if Lowering.contiguous D then [] else Lowering.domainCells D (x + 1)

/-- `W` gives every column of `cols` from `x` on an integer value within the column's bounds. -/
def IntegralFrom (cols : Array (Column ERat)) (x : Nat) (W : Array ERat) : Prop :=
  ∀ j col, x ≤ j → cols[j]? = some col →
    ∃ z : Int, W.getD j Scalar.zero = .fin z ∧ col.lower ≤ .fin z ∧ .fin z ≤ col.upper

/-- A binary column over `[0, 1]` keeps its bounds. -/
theorem FlatModel.addColumn_binary_columns (m : FlatModel ERat) (name : String) :
    (m.addColumn name .binary Scalar.zero Scalar.one).2.columns =
      m.columns.push ⟨name, .binary, Scalar.zero, Scalar.one, none⟩ := by
  have hmax : (Scalar.max Scalar.zero Scalar.zero : ERat) = Scalar.zero := by decide
  have hmin : (Scalar.min Scalar.one Scalar.one : ERat) = Scalar.one := by decide
  simp [FlatModel.addColumn, hmax, hmin]

theorem map_snd_valueCells (x : Nat) (D : List Int) :
    (valueCells x D).map Prod.snd = List.range' (x + 1) (valueCells x D).length := by
  unfold valueCells
  split <;> simp

theorem map_domainCells_fst {β : Type} (f : Int → β) (D : List Int) (s : Nat) :
    (Lowering.domainCells D s).map (fun q => f q.1) = D.map f := by
  rw [show (fun q : Int × Nat => f q.1) = f ∘ Prod.fst from rfl, ← List.map_map,
    Lowering.map_fst_domainCells]

/-- Cells whose columns follow a prefix of an array, in order: the entry at each cell's column is
the cell's entry of the list. -/
theorem getElem?_cells {β : Type} {A : Array β} {P : List β} {B : List (Int × Nat)}
    {g : Int × Nat → β} (hA : A.toList = P ++ B.map g)
    (hB : B.map Prod.snd = List.range' P.length B.length) : ∀ q ∈ B, A[q.2]? = some (g q) := by
  intro q hq
  obtain ⟨i, hi, rfl⟩ := List.mem_iff_getElem.1 hq
  have hsnd : B[i].2 = P.length + i := by
    have h := congrArg (fun l => l[i]?) hB
    simpa [hi] using h
  rw [← Array.getElem?_toList, hA, hsnd, List.getElem?_append_right (by omega),
    Nat.add_sub_cancel_left, List.getElem?_map, List.getElem?_eq_getElem hi]
  rfl

/-- The cells cover the columns of their range. -/
theorem exists_cell_of_mem {B : List (Int × Nat)} {s j : Nat}
    (hB : B.map Prod.snd = List.range' s B.length) (hj₁ : s ≤ j) (hj₂ : j < s + B.length) :
    ∃ q ∈ B, q.2 = j := by
  have hj : j ∈ B.map Prod.snd := by
    rw [hB, List.mem_range'_1]
    exact ⟨hj₁, hj₂⟩
  obtain ⟨q, hq, rfl⟩ := List.mem_map.1 hj
  exact ⟨q, hq, rfl⟩

/-- An integer between `0` and `1` is a 0/1 value. -/
theorem fin_eq_ofBool {z : Int} (h₀ : (Scalar.zero : ERat) ≤ .fin z)
    (h₁ : (.fin z : ERat) ≤ Scalar.one) : (.fin z : ERat) = ofBool (decide (z = 1)) := by
  rw [zero_eq_fin, fin_le_fin] at h₀
  rw [one_eq_fin, fin_le_fin] at h₁
  have h₀' : 0 ≤ z := by exact_mod_cast h₀
  have h₁' : z ≤ 1 := by exact_mod_cast h₁
  rcases (by omega : z = 0 ∨ z = 1) with rfl | rfl <;> simp [ofBool]

/-- A 0/1 value is an integer between `0` and `1`. -/
theorem ofBool_integral (c : Bool) :
    ∃ z : Int, ofBool c = .fin z ∧ (Scalar.zero : ERat) ≤ .fin z ∧
      (.fin z : ERat) ≤ Scalar.one := by
  cases c
  · exact ⟨0, by simp [ofBool], by simp [zero_eq_fin], by simp [one_eq_fin]⟩
  · exact ⟨1, by simp [ofBool], by simp [zero_eq_fin], by simp [one_eq_fin]⟩

section Layout

variable {id : Nat} {cols old : Array (Column ERat)} {lo hi : Int} {D : List Int}

/-- The columns of an integer variable after the columns `old`: its own column first, then the
binary of every cell at the cell's column. -/
theorem getElem?_layout
    (hcols : cols.toList = old.toList ++ intColumn id lo hi D ::
      (valueCells old.size D).map fun q => valueColumn id q.1) :
    cols[old.size]? = some (intColumn id lo hi D) ∧
      ∀ q ∈ valueCells old.size D, old.size < q.2 ∧ cols[q.2]? = some (valueColumn id q.1) := by
  refine ⟨by rw [← Array.getElem?_toList, hcols]; simp, fun q hq => ⟨?_, ?_⟩⟩
  · have hmem := List.mem_map_of_mem (f := Prod.snd) hq
    rw [map_snd_valueCells, List.mem_range'_1] at hmem
    omega
  · exact getElem?_cells (P := old.toList ++ [intColumn id lo hi D])
      (g := fun q => valueColumn id q.1) (by rw [hcols]; simp)
      (by simpa using map_snd_valueCells old.size D) q hq

/-- At a point that gives the columns of an integer variable integer values within their
bounds, `x` is an integer between the bounds and each binary is `0` or `1`. -/
theorem integralFrom_layout {W : Array ERat}
    (hcols : cols.toList = old.toList ++ intColumn id lo hi D ::
      (valueCells old.size D).map fun q => valueColumn id q.1)
    (hW : IntegralFrom cols old.size W) :
    (∃ z : Int, W.getD old.size Scalar.zero = .fin z ∧ lo ≤ z ∧ z ≤ hi) ∧
      ∀ q ∈ valueCells old.size D, ∃ c : Bool, W.getD q.2 Scalar.zero = ofBool c := by
  obtain ⟨hx, hcells⟩ := getElem?_layout hcols
  obtain ⟨z, hz, hlo, hhi⟩ := hW old.size _ le_rfl hx
  refine ⟨⟨z, hz, by simpa [intColumn] using hlo, by simpa [intColumn] using hhi⟩, fun q hq => ?_⟩
  obtain ⟨hlt, hcell⟩ := hcells q hq
  obtain ⟨w, hw, h₀, h₁⟩ := hW q.2 _ hlt.le hcell
  exact ⟨_, hw.trans (fin_eq_ofBool h₀ h₁)⟩

/-- Every integer between the bounds of `x{id}` is the value of `x` at a point that gives the
columns of the variable integer values within their bounds, each binary on exactly when `x` is
its value. -/
theorem exists_point {z : Int}
    (hcols : cols.toList = old.toList ++ intColumn id lo hi D ::
      (valueCells old.size D).map fun q => valueColumn id q.1)
    (hz₁ : lo ≤ z) (hz₂ : z ≤ hi) :
    ∃ W, IntegralFrom cols old.size W ∧ W.getD old.size Scalar.zero = .fin z ∧
      ∀ q ∈ valueCells old.size D, W.getD q.2 Scalar.zero = ofBool (decide (z = q.1)) := by
  obtain ⟨hx, hcells⟩ := getElem?_layout hcols
  -- zeros before `x`, then `z`, then the indicator of `z` for every binary
  let W : Array ERat := (List.replicate old.size (fin 0) ++ [fin z] ++
    (valueCells old.size D).map fun q => ofBool (decide (z = q.1))).toArray
  have hWcells : ∀ q ∈ valueCells old.size D, W[q.2]? = some (ofBool (decide (z = q.1))) :=
    getElem?_cells (P := List.replicate old.size (fin 0) ++ [fin z])
      (g := fun q => ofBool (decide (z = q.1))) (by simp [W])
      (by simpa using map_snd_valueCells old.size D)
  have hWx : W.getD old.size Scalar.zero = .fin z := by
    simp [W, Array.getD_eq_getD_getElem?]
  have hsize : cols.size = old.size + 1 + (valueCells old.size D).length := by
    rw [← Array.length_toList, hcols]
    simp
    omega
  refine ⟨W, fun j col hj hcol => ?_, hWx, fun q hq => ?_⟩
  · have hjlt : j < cols.size := (Array.getElem?_eq_some_iff.1 hcol).1
    rcases eq_or_lt_of_le hj with rfl | hlt
    · rw [hx, Option.some.injEq] at hcol
      subst hcol
      exact ⟨z, hWx, by simpa [intColumn] using hz₁, by simpa [intColumn] using hz₂⟩
    · obtain ⟨q, hq, rfl⟩ := exists_cell_of_mem (map_snd_valueCells old.size D) hlt (by omega)
      rw [(hcells q hq).2, Option.some.injEq] at hcol
      subst hcol
      obtain ⟨w, hw, h₀, h₁⟩ := ofBool_integral (decide (z = q.1))
      refine ⟨w, ?_, h₀, h₁⟩
      rw [Array.getD_eq_getD_getElem?, hWcells q hq, Option.getD_some, hw]
  · rw [Array.getD_eq_getD_getElem?, hWcells q hq, Option.getD_some]

end Layout

/-! ### The rows of the binaries -/

theorem Row.FiniteAt.foldl_addVar {V : Array ERat} (c : Int × Nat → ERat) :
    ∀ (g : List (Int × Nat)) {r : Row ERat}, r.FiniteAt V →
      (∀ q ∈ g, ∃ w, V.getD q.2 Scalar.zero = .fin w) →
      (g.foldl (fun r q => r.addVar q.2 (c q)) r).FiniteAt V
  | [], _, hr, _ => hr
  | q :: g, _, hr, hg => by
    rw [List.foldl_cons]
    exact Row.FiniteAt.foldl_addVar c g (hr.addVar (hg q List.mem_cons_self) _)
      fun q' hq' => hg q' (List.mem_cons_of_mem _ hq')

namespace Lowering

/-- The row `Σ bᵥ = 1` over the binaries of the values `D` of the variable on column `x`. -/
def oneHotRow (x : Nat) (D : List Int) : Row ERat :=
  (domainCells D (x + 1)).foldl (fun r q => r.addVar q.2 (fin 1)) (Row.empty Scalar.one Scalar.one)

/-- The row `x - Σ v · bᵥ = 0` linking the variable on column `x` to the binaries of its values. -/
def linkRow (x : Nat) (D : List Int) : Row ERat :=
  (domainCells D (x + 1)).foldl (fun r q => r.addVar q.2 (fin (-(q.1 : Rat))))
    ((Row.empty Scalar.zero Scalar.zero).addVar x Scalar.one)

/-- The one-hot row and the linking row hold exactly when `x` is one of the values `D`, which
have no repeats, and each binary is on exactly when `x` is its value. -/
theorem valueRows_admits_iff {W : Array ERat} {x : Nat} {D : List Int} (hnd : D.Nodup)
    (hx : ∃ a, W.getD x Scalar.zero = .fin a)
    (hbin : ∀ q ∈ domainCells D (x + 1), ∃ c : Bool, W.getD q.2 Scalar.zero = ofBool c) :
    ((oneHotRow x D).Admits W ∧ (linkRow x D).Admits W) ↔
      ∃ v ∈ D, W.getD x Scalar.zero = .fin v ∧
        ∀ q ∈ domainCells D (x + 1), W.getD q.2 Scalar.zero = ofBool (decide (v = q.1)) := by
  set B := domainCells D (x + 1)
  obtain ⟨a, ha⟩ := hx
  have hfin : ∀ q ∈ B, ∃ w, W.getD q.2 Scalar.zero = .fin w := fun q hq => by
    obtain ⟨c, hc⟩ := hbin q hq
    exact ⟨_, hc⟩
  have hc₀ : ((Row.empty Scalar.zero Scalar.zero).addVar x Scalar.one : Row ERat).FiniteCoefs :=
    (Row.finiteCoefs_empty _ _).addVar x 1
  have hf₀ : ((Row.empty Scalar.zero Scalar.zero).addVar x Scalar.one : Row ERat).FiniteAt W :=
    Row.FiniteAt.addVar (fun _ ht => absurd ht List.not_mem_nil) ⟨a, ha⟩ _
  obtain ⟨hcA, haddsA⟩ := adds_foldl_addVar (fun _ => 1) B
    (Row.finiteCoefs_empty Scalar.one Scalar.one)
  obtain ⟨hcL, haddsL⟩ := adds_foldl_addVar (fun q => -(q.1 : Rat)) B hc₀
  rw [oneHotRow, linkRow,
    haddsA.admits_iff hcA (Row.FiniteAt.foldl_addVar _ B (fun _ ht => absurd ht List.not_mem_nil)
      hfin),
    haddsL.admits_iff hcL (Row.FiniteAt.foldl_addVar _ B hf₀ hfin)]
  -- the one-hot row says that the binaries sum to `1`, the linking row that `x` is their values
  have hval₀ : ((Row.empty Scalar.zero Scalar.zero).addVar x Scalar.one : Row ERat).value W = a := by
    rw [one_eq_fin, Row.value_addVar (Row.finiteCoefs_empty _ _), ha]
    simp
  have hneg : (B.map fun q => -(q.1 : Rat) * (W.getD q.2 Scalar.zero).toRat).sum =
      -(B.map fun q => (q.1 : Rat) * (W.getD q.2 Scalar.zero).toRat).sum := by
    rw [List.sum_neg, List.map_map]
    exact congrArg List.sum (List.map_congr_left fun q _ => neg_mul _ _)
  set T := (B.map fun q => (q.1 : Rat) * (W.getD q.2 Scalar.zero).toRat).sum
  have hone : ∀ S : Rat, ((Scalar.one : ERat) ≤ fin S ∧ fin S ≤ Scalar.one) ↔ S = 1 := by
    intro S
    rw [one_eq_fin, fin_le_fin, fin_le_fin]
    exact ⟨fun h => le_antisymm h.2 h.1, fun h => ⟨h.ge, h.le⟩⟩
  have hlink : ((Scalar.zero : ERat) ≤ fin (a + -T) ∧ fin (a + -T) ≤ Scalar.zero) ↔ a = T := by
    rw [zero_eq_fin, fin_le_fin, fin_le_fin]
    constructor
    · rintro ⟨h₁, h₂⟩
      linarith
    · intro h
      constructor <;> linarith
  simp only [Row.lhs_empty, Row.rhs_empty, Row.addVar_lhs, Row.addVar_rhs, Row.value_empty,
    zero_add, one_mul, hval₀, hneg, hone, hlink]
  rw [oneHot_iff (fun q => W.getD q.2 Scalar.zero) a (by rw [map_fst_domainCells]; exact hnd) hbin]
  constructor
  · rintro ⟨⟨q, hq, haq⟩, hw⟩
    refine ⟨q.1, ?_, by rw [ha, haq], fun q' hq' => ?_⟩
    · have hmem := List.mem_map_of_mem (f := Prod.fst) hq
      rwa [map_fst_domainCells] at hmem
    · rw [hw q' hq', haq]
      simp
  · rintro ⟨v, hv, hxv, hw⟩
    have hav : a = v := by
      rw [ha] at hxv
      exact ERat.fin.inj hxv
    obtain ⟨q, hq, rfl⟩ :=
      List.mem_map.1 (by rw [map_fst_domainCells]; exact hv : v ∈ B.map Prod.fst)
    refine ⟨⟨q, hq, hav⟩, fun q' hq' => ?_⟩
    rw [hw q' hq', hav]
    simp

/-- A list whose consecutive values differ by `1` holds every integer between its first and its
last value. -/
theorem mem_of_contiguous : ∀ {a : Int} {l : List Int}, contiguous (a :: l) = true →
    ∀ z, a ≤ z → z ≤ (a :: l).getLast (List.cons_ne_nil a l) → z ∈ a :: l
  | a, [], _, z, h₁, h₂ => by
    rw [List.getLast_singleton] at h₂
    rw [le_antisymm h₂ h₁]
    exact List.mem_singleton_self a
  | a, c :: l, h, z, h₁, h₂ => by
    simp only [contiguous, Bool.and_eq_true, beq_iff_eq] at h
    rcases eq_or_lt_of_le h₁ with rfl | hlt
    · exact List.mem_cons_self
    · rw [List.getLast_cons (List.cons_ne_nil c l)] at h₂
      exact List.mem_cons_of_mem _ (mem_of_contiguous h.2 z (by omega) h₂)

/-! ### Lowering an integer variable over listed values -/

variable (id : Nat)

/-- The loop of `encodeIntVar` over the values `D` adds the binaries of `D`, the next columns in
order, to the one-hot row with coefficient `1` and to the linking row with coefficient `-v`. -/
theorem valueBinaries_run : ∀ (D : List Int) (A L : Row ERat) (b : Builder ERat),
    ∃ m : FlatModel ERat,
      (D.foldlM (fun (acc : Row ERat × Row ERat) v => do
        let bv ← addColumn ("x" ++ toString id ++ "==" ++ toString v) .binary Scalar.zero
          Scalar.one
        pure (acc.1.addVar bv Scalar.one, acc.2.addVar bv (-(Scalar.ofInt v)))) (A, L)).run b =
        .ok ((domainCells D b.model.columns.size).foldl (fun r q => r.addVar q.2 (.fin 1)) A,
          (domainCells D b.model.columns.size).foldl
            (fun r q => r.addVar q.2 (.fin (-(q.1 : Rat)))) L) { b with model := m } ∧
      m.rows = b.model.rows ∧ m.columns.toList = b.model.columns.toList ++ D.map (valueColumn id)
  | [], A, L, b => ⟨b.model, rfl, rfl, by simp⟩
  | v :: rest, A, L, b => by
    obtain ⟨m, hrun, hrows, hcols⟩ := valueBinaries_run rest
      (A.addVar b.model.columns.size Scalar.one)
      (L.addVar b.model.columns.size (-(Scalar.ofInt v)))
      { b with model := (b.model.addColumn ("x" ++ toString id ++ "==" ++ toString v) .binary
        Scalar.zero Scalar.one).2 }
    have hsize : ({ b with model := (b.model.addColumn
        ("x" ++ toString id ++ "==" ++ toString v) .binary Scalar.zero
          Scalar.one).2 } : Builder ERat).model.columns.size = b.model.columns.size + 1 := by
      simp [FlatModel.addColumn]
    rw [hsize] at hrun
    refine ⟨m, ?_, hrows, ?_⟩
    · rw [List.foldlM_cons, run_bind, domainCells_cons]
      exact hrun
    · rw [hcols]
      simp [FlatModel.addColumn_binary_columns, valueColumn, ColumnName.render]

/-- Values without holes: the column alone. -/
theorem encodeIntVar_contiguous_run (b : Builder ERat) {lo hi : Int} {D : List Int}
    (hc : contiguous D = true) :
    ∃ m : FlatModel ERat, (encodeIntVar id lo hi (some D)).run b =
        .ok b.model.columns.size { b with model := m } ∧
      m.columns.toList = b.model.columns.toList ++ intColumn id lo hi D ::
        (valueCells b.model.columns.size D).map (fun q => valueColumn id q.1) ∧
      m.rows = b.model.rows := by
  unfold encodeIntVar
  rw [run_bind, addColumn_run]
  dsimp only
  rw [hc, if_pos rfl]
  exact ⟨_, rfl, by simp [FlatModel.addColumn, intColumn, valueCells, hc, ColumnName.render], rfl⟩

/-- Values with holes: the column storing them, their binaries, then the one-hot row and the
linking row. -/
theorem encodeIntVar_holes_run (b : Builder ERat) {lo hi : Int} {D : List Int}
    (hc : contiguous D = false) :
    ∃ m : FlatModel ERat, (encodeIntVar id lo hi (some D)).run b =
        .ok b.model.columns.size { b with model := m } ∧
      m.columns.toList = b.model.columns.toList ++ intColumn id lo hi D ::
        (valueCells b.model.columns.size D).map (fun q => valueColumn id q.1) ∧
      m.rows.toList = b.model.rows.toList ++
        [oneHotRow b.model.columns.size D, linkRow b.model.columns.size D] := by
  unfold encodeIntVar
  rw [run_bind, addColumn_run]
  dsimp only
  rw [hc]
  simp only [Bool.false_eq_true, if_false]
  have hmod : ∀ (f : Builder ERat → Builder ERat) (b' : Builder ERat),
      (modify f : Lowering ERat PUnit).run b' = .ok () (f b') := fun _ _ => rfl
  rw [run_bind, hmod]
  dsimp only
  -- the binaries follow the column, which now stores the values
  obtain ⟨m₁, hrun, hrows, hcols⟩ := valueBinaries_run id D (Row.empty Scalar.one Scalar.one)
    ((Row.empty Scalar.zero Scalar.zero).addVar b.model.columns.size Scalar.one)
    { b with model := (b.model.addColumn ("x" ++ toString id) .integer (Scalar.ofInt lo)
      (Scalar.ofInt hi)).2.modifyColumn b.model.columns.size fun c => { c with values := some D } }
  have hsize₁ : ((b.model.addColumn ("x" ++ toString id) .integer (Scalar.ofInt lo)
      (Scalar.ofInt hi)).2.modifyColumn b.model.columns.size
        fun c => { c with values := some D }).columns.size = b.model.columns.size + 1 := by
    simp [FlatModel.modifyColumn, FlatModel.addColumn]
  dsimp only at hrun
  rw [hsize₁] at hrun
  rw [run_bind, hrun]
  dsimp only
  rw [run_bind, post_run]
  dsimp only
  rw [run_bind, post_run]
  have hmodify : ∀ (l : List (Column ERat)) (c : Column ERat) (f : Column ERat → Column ERat),
      (l ++ [c]).modify l.length f = l ++ [f c] := fun l c f => by
    rw [List.modify_eq_take_cons_drop (by simp)]
    simp
  refine ⟨((m₁.addRow (oneHotRow b.model.columns.size D)).addRow
    (linkRow b.model.columns.size D)), rfl, ?_, ?_⟩
  · show m₁.columns.toList = _
    rw [hcols, valueCells, if_neg (by simp [hc]), map_domainCells_fst]
    simp [FlatModel.modifyColumn, FlatModel.addColumn, intColumn, hc, ColumnName.render,
      ← Array.length_toList, hmodify]
  · simp [FlatModel.addRow, hrows, FlatModel.modifyColumn, FlatModel.addColumn]

/-- A lowering that extends the rows added none exactly when it left them as they were. -/
theorem addedRows_eq_nil_iff {α : Type} {b b' : Builder α}
    (h : b.model.rows.toList <+: b'.model.rows.toList) :
    addedRows b b' = [] ↔ b'.model.rows = b.model.rows := by
  obtain ⟨t, ht⟩ := h
  rw [addedRows, ← ht, ← Array.length_toList, List.drop_left, ← Array.toList_inj, ← ht]
  simp

/-- An integer variable over the stored values `D`, sorted without repeats from `lo` to `hi`:
the column `x{id}` and, with holes, the binaries of the values. At a point that gives them
integer values within their bounds, the added rows hold exactly when `x` is one of the values and
each binary is on exactly when `x` is its value. -/
theorem encodeIntVar_values_spec (b : Builder ERat) {lo hi : Int} {D : List Int}
    (hnd : D.Nodup) (hlo : D.head? = some lo) (hhi : D.getLast? = some hi) :
    ∃ m : FlatModel ERat, (encodeIntVar id lo hi (some D)).run b =
        .ok b.model.columns.size { b with model := m } ∧
      m.columns.toList = b.model.columns.toList ++ intColumn id lo hi D ::
        (valueCells b.model.columns.size D).map (fun q => valueColumn id q.1) ∧
      b.model.rows.toList <+: m.rows.toList ∧
      (contiguous D = true ↔ m.rows = b.model.rows) ∧
      ∀ W, IntegralFrom m.columns b.model.columns.size W →
        (AddedRowsAdmit b { b with model := m } W ↔
          ∃ v ∈ D, W.getD b.model.columns.size Scalar.zero = .fin v ∧
            ∀ q ∈ valueCells b.model.columns.size D,
              W.getD q.2 Scalar.zero = ofBool (decide (v = q.1))) := by
  cases hc : contiguous D with
  | true =>
    obtain ⟨m, hrun, hcols, hrows⟩ := encodeIntVar_contiguous_run id b hc
    refine ⟨m, hrun, hcols, hrows ▸ List.prefix_refl _, iff_of_true rfl hrows, fun W hW => ?_⟩
    -- no row: every integer between the bounds is a value
    obtain ⟨⟨z, hz, hzlo, hzhi⟩, -⟩ := integralFrom_layout hcols hW
    refine iff_of_true (addedRowsAdmit_of_rows_eq hrows) ⟨z, ?_, hz, by simp [valueCells, hc]⟩
    obtain ⟨rest, rfl⟩ := List.head?_eq_some_iff.1 hlo
    rw [List.getLast?_eq_getLast_of_ne_nil (List.cons_ne_nil lo rest), Option.some.injEq] at hhi
    exact mem_of_contiguous hc z hzlo (hhi ▸ hzhi)
  | false =>
    obtain ⟨m, hrun, hcols, hrows⟩ := encodeIntVar_holes_run id b hc
    refine ⟨m, hrun, hcols, hrows ▸ List.prefix_append _ _,
      iff_of_false Bool.false_ne_true fun h => ?_, fun W hW => ?_⟩
    · -- two rows were posted
      have hsize := congrArg List.length (congrArg Array.toList h)
      rw [hrows] at hsize
      simp at hsize
    · obtain ⟨⟨z, hz, -, -⟩, hbin⟩ := integralFrom_layout hcols hW
      have hadded : addedRows b { b with model := m } =
          [oneHotRow b.model.columns.size D, linkRow b.model.columns.size D] := by
        simp [addedRows, hrows]
      rw [valueCells, if_neg (by simp [hc])] at hbin ⊢
      rw [AddedRowsAdmit, hadded, List.forall_mem_cons, List.forall_mem_singleton]
      exact valueRows_admits_iff hnd ⟨z, hz⟩ hbin

/-- Walking a node without operands or encoding is lowering it. -/
theorem visit_leaf_run {α : Type} [Scalar α] {b : Builder α} {n : Node α}
    (hn : b.nodes[id]? = some n) (he : n.encoding = none) (hc : n.kind.children = [])
    (top : Bool) : (visit id top).run b = (encode id top).run b := by
  rw [visit, run_bind, nodeAt_run, hn]
  dsimp only
  rw [he, hc]
  rfl

end Lowering

namespace Builder

open Lowering

/-- An integer variable over a non-empty list of values, added to a builder that is not frozen,
and then added as a root. Its node is encoded as the next column `x`, an integer column over the
least and the greatest listed value, followed by a binary per stored value when the values have
holes. The rows added hold, at a point that gives these columns integer values within their
bounds, exactly when `x` is a listed value and every binary is on exactly when `x` is its value;
there are none exactly when the values have no holes. So the values `x` takes at such points are
exactly the listed ones. -/
theorem intVarValues_domain_exact (b : Builder ERat) (hb : b.initialised = false)
    {vs : List Int} (hvs : vs ≠ []) :
    ∃ b₁ b₂, b.intVarValues vs = .ok (b.nodes.size, b₁) ∧
      b₁.add b.nodes.size = .ok (b.nodes.size, b₂) ∧
      (∃ n, b₂.nodes[b.nodes.size]? = some n ∧ n.encoding = some (.column b.model.columns.size)) ∧
      (∃ lo hi, lo ∈ vs ∧ hi ∈ vs ∧ (∀ v ∈ vs, lo ≤ v ∧ v ≤ hi) ∧
        b₂.model.columns.toList = b.model.columns.toList ++
          intColumn b.nodes.size lo hi (sortedValues vs) ::
            (valueCells b.model.columns.size (sortedValues vs)).map
              fun q => valueColumn b.nodes.size q.1) ∧
      (contiguous (sortedValues vs) = true ↔ addedRows b b₂ = []) ∧
      (∀ W, IntegralFrom b₂.model.columns b.model.columns.size W →
        (AddedRowsAdmit b b₂ W ↔ ∃ v ∈ vs, W.getD b.model.columns.size Scalar.zero = .fin v ∧
          ∀ q ∈ valueCells b.model.columns.size (sortedValues vs),
            W.getD q.2 Scalar.zero = ofBool (decide (v = q.1)))) ∧
      ∀ z : Int, (∃ W, IntegralFrom b₂.model.columns b.model.columns.size W ∧
        AddedRowsAdmit b b₂ W ∧ W.getD b.model.columns.size Scalar.zero = .fin z) ↔ z ∈ vs := by
  obtain ⟨lo, hi, hlo, hhi, hderive⟩ := derive_intVar_some b 0 0 hvs
  obtain ⟨hlo_mem, hhi_mem, hbetween⟩ := sortedValues_bounds hlo hhi
  set D := sortedValues vs
  set id := b.nodes.size
  set x := b.model.columns.size
  set n : Node ERat := ⟨.intVar lo hi (some D), .fin lo, .fin hi, false, none⟩
  have hadd₁ : b.intVarValues vs = .ok (b.pushNode n) := by
    simp [Builder.intVarValues, Builder.addExpr, hb, hderive]
    rfl
  set b₁ := (b.pushNode n).2
  have hn : b₁.nodes[id]? = some n := by simp [b₁, Builder.pushNode, id]
  obtain ⟨m, hrun, hcols, hpre, hcont, hsem⟩ :=
    encodeIntVar_values_spec id b₁ (nodup_sortedValues vs) hlo hhi
  -- the walk lowers the new node on the spot and records its column
  set b₂ : Builder ERat := { b₁ with
    model := m
    nodes := b₁.nodes.modify id fun n => { n with encoding := some (.column x) }
    encoded := b₁.encoded ++ [id] }
  have hencode : (encode id true).run b₁ = .ok () b₂ := by
    have hkind : (encodeKind id n.kind true : Lowering ERat Encoding) =
        Encoding.column <$> encodeIntVar id lo hi (some D) := rfl
    rw [encode, run_bind, nodeAt_run, hn]
    dsimp only
    rw [run_bind, hkind, map_eq_pure_bind, run_bind, hrun]
    rfl
  have hadd : b₁.add id = .ok (id, { b₂ with encoded := [] }) := by
    have hinit : b₁.initialised = false := hb
    simp [Builder.add, Builder.addRun, hinit, Builder.node, hn, visit_leaf_run id hn rfl rfl true,
      hencode]
  have hcolsx : m.columns.toList = b.model.columns.toList ++ intColumn id lo hi D ::
      (valueCells x D).map fun q => valueColumn id q.1 := hcols
  have hsemvs : ∀ W, IntegralFrom m.columns x W →
      (AddedRowsAdmit b { b₂ with encoded := [] } W ↔ ∃ v ∈ vs,
        W.getD x Scalar.zero = .fin v ∧
          ∀ q ∈ valueCells x D, W.getD q.2 Scalar.zero = ofBool (decide (v = q.1))) := fun W hW =>
    (hsem W hW).trans (exists_congr fun _ => and_congr_left' mem_sortedValues)
  have hnil : addedRows b { b₂ with encoded := [] } = [] ↔ m.rows = b.model.rows :=
    addedRows_eq_nil_iff hpre
  refine ⟨b₁, { b₂ with encoded := [] }, hadd₁, hadd,
    ⟨{ n with encoding := some (.column x) }, ?_, rfl⟩,
    ⟨lo, hi, hlo_mem, hhi_mem, hbetween, hcolsx⟩, hcont.trans hnil.symm, hsemvs,
    fun z => ⟨?_, fun hz => ?_⟩⟩
  · show (b₁.nodes.modify id fun n => { n with encoding := some (.column x) })[id]? = _
    rw [Array.getElem?_modify, hn]
    simp
  · -- a value taken is a listed value
    rintro ⟨W, hW, hadm, hz⟩
    obtain ⟨v, hv, hxv, -⟩ := (hsemvs W hW).1 hadm
    rw [hz, ERat.fin.injEq, Int.cast_inj] at hxv
    exact hxv ▸ hv
  · -- a listed value is taken, its binaries indicating it
    obtain ⟨W, hW, hWx, hWc⟩ := exists_point hcolsx (hbetween z hz).1 (hbetween z hz).2
    exact ⟨W, hW, (hsemvs W hW).2 ⟨z, hz, hWx, hWc⟩, hWx⟩

/-- The values `3, 1, 3, 7` in a new builder, stored as `1, 3, 7` with holes. -/
theorem newBuilder_domain_exact :
    (Builder.new : Builder ERat).initialised = false ∧ ([3, 1, 3, 7] : List Int) ≠ [] ∧
    ∃ b₁ b₂, (Builder.new : Builder ERat).intVarValues [3, 1, 3, 7] =
        .ok ((Builder.new : Builder ERat).nodes.size, b₁) ∧
      b₁.add (Builder.new : Builder ERat).nodes.size =
        .ok ((Builder.new : Builder ERat).nodes.size, b₂) ∧
      (∃ n, b₂.nodes[(Builder.new : Builder ERat).nodes.size]? = some n ∧
        n.encoding = some (.column (Builder.new : Builder ERat).model.columns.size)) ∧
      (∃ lo hi, lo ∈ [3, 1, 3, 7] ∧ hi ∈ [3, 1, 3, 7] ∧ (∀ v ∈ [3, 1, 3, 7], lo ≤ v ∧ v ≤ hi) ∧
        b₂.model.columns.toList = (Builder.new : Builder ERat).model.columns.toList ++
          intColumn (Builder.new : Builder ERat).nodes.size lo hi (sortedValues [3, 1, 3, 7]) ::
            (valueCells (Builder.new : Builder ERat).model.columns.size
              (sortedValues [3, 1, 3, 7])).map
              fun q => valueColumn (Builder.new : Builder ERat).nodes.size q.1) ∧
      (contiguous (sortedValues [3, 1, 3, 7]) = true ↔ addedRows Builder.new b₂ = []) ∧
      (∀ W, IntegralFrom b₂.model.columns (Builder.new : Builder ERat).model.columns.size W →
        (AddedRowsAdmit Builder.new b₂ W ↔ ∃ v ∈ ([3, 1, 3, 7] : List Int),
          W.getD (Builder.new : Builder ERat).model.columns.size Scalar.zero = .fin v ∧
          ∀ q ∈ valueCells (Builder.new : Builder ERat).model.columns.size
              (sortedValues [3, 1, 3, 7]),
            W.getD q.2 Scalar.zero = ofBool (decide (v = q.1)))) ∧
      ∀ z : Int, (∃ W, IntegralFrom b₂.model.columns
          (Builder.new : Builder ERat).model.columns.size W ∧
        AddedRowsAdmit Builder.new b₂ W ∧
        W.getD (Builder.new : Builder ERat).model.columns.size Scalar.zero = .fin z) ↔
          z ∈ [3, 1, 3, 7] :=
  ⟨rfl, List.cons_ne_nil 3 [1, 3, 7], intVarValues_domain_exact Builder.new rfl (List.cons_ne_nil 3 [1, 3, 7])⟩

end Builder

end MipLowering
