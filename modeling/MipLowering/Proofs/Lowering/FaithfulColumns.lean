import MipLowering.Proofs.Lowering.FaithfulLogic
import MipLowering.Proofs.Lowering.EnumeratedDomains

/-!
# Variables, views, sums and objectives, lowered faithfully

The kinds that take a value rather than a truth value. A view is never given a column: its value
is read through its base (`Builder.Faithful.view`). An integer variable gets its column `x` and,
for listed values with holes, a binary per value and two rows; the values `x` takes at points of
the grown model are the values the variable admits (`Builder.Faithful.intVar`). A sum at top level
posts the row of its derived bounds and stays affine; nested, and an objective, get a column `s`
tied to the value by one row `s = value` (`Builder.Faithful.link`, `Builder.Faithful.sum`,
`Builder.Faithful.objective`).

## Main results

* `MipLowering.Lowering.sumRow_spec` — the row of a sum adds its value.
* `MipLowering.Lowering.encodeIntVar_exact` — the rows of an integer variable hold exactly at its
  admitted values.
* `MipLowering.Builder.Faithful.view`, `MipLowering.Builder.Faithful.intVar`,
  `MipLowering.Builder.Faithful.sum`, `MipLowering.Builder.Faithful.objective`.
-/

namespace MipLowering

open ERat Lowering

/-- A row `0 ≤ δ ≤ 0` holds exactly when `δ` vanishes. -/
theorem Row.Adds.admits_zero_iff {R : Row ERat} {δ : Array ERat → ℚ}
    (h : Row.Adds (Row.empty Scalar.zero Scalar.zero) R δ) (hc : R.FiniteCoefs) {U : Array ERat}
    (hU : R.FiniteAt U) : R.Admits U ↔ δ U = 0 := by
  rw [h.admits_iff hc hU, Row.value_empty, zero_add]
  simp only [Row.lhs_empty, Row.rhs_empty, zero_eq_fin, fin_le_fin]
  exact ⟨fun h => le_antisymm h.2 h.1, fun h => ⟨h.ge, h.le⟩⟩

namespace Lowering

variable {b b' : Builder ERat}

/-- Folding the weighted operands `ts` of a sum into a row keeps the builder and the row merged,
adds the weighted values of the operands, and adds terms on the columns below them only. -/
theorem foldlM_fold_spec (hord : OperandsPrecede b.nodes) (ts : List (Nat × Int)) :
    ∀ {r R : Row ERat} {b' : Builder ERat}, (∀ t ∈ ts, FiniteBelow b.nodes t.1) →
      r.FiniteCoefs → r.Merged →
      (ts.foldlM (fun r t => fold r t.1 (Scalar.ofInt t.2)) r).run b = .ok R b' →
      b' = b ∧ R.Merged ∧ R.FiniteCoefs ∧
        Row.Adds r R (fun V => (ts.map fun t => (t.2 : ℚ) * evalNode b.nodes V t.1).sum) ∧
        ∀ t ∈ R.terms, (∃ t' ∈ r.terms, t'.1 = t.1) ∨ ∃ u ∈ ts, Row.ColumnOf b.nodes u.1 t.1 := by
  induction ts with
  | nil =>
    intro r R b' _ hr hm h
    cases h
    exact ⟨rfl, hm, hr, (Row.Adds.refl r).congr fun V => by simp, fun t ht => .inl ⟨t, ht, rfl⟩⟩
  | cons u ts ih =>
    intro r R b' hts hr hm h
    rw [List.foldlM_cons] at h
    obtain ⟨r₁, b₁, h₁, h₂⟩ := run_bind_ok h
    obtain ⟨rfl, hm₁, hc₁, hadds₁, hterms₁⟩ := fold_spec hord (hts u List.mem_cons_self) hr hm h₁
    obtain ⟨rfl, hm₂, hc₂, hadds₂, hterms₂⟩ :=
      ih (fun t ht => hts t (List.mem_cons_of_mem _ ht)) hc₁ hm₁ h₂
    refine ⟨rfl, hm₂, hc₂, (hadds₁.trans hadds₂).congr fun V => by simp, fun t ht => ?_⟩
    rcases hterms₂ t ht with ⟨t', ht', heq⟩ | ⟨w, hw, hcol⟩
    · rcases hterms₁ t' ht' with hold | hcol
      · exact .inl (heq ▸ hold)
      · exact .inr ⟨u, List.mem_cons_self, heq ▸ hcol⟩
    · exact .inr ⟨w, List.mem_cons_of_mem _ hw, hcol⟩

/-- The row of a sum `o + Σ wᵢ · xᵢ` with a finite offset: the builder is kept, the coefficients
are finite and on the columns below the operands, and the row adds the value of the sum. -/
theorem sumRow_spec {id : Nat} {lhs rhs : ERat} {R : Row ERat}
    (h : (sumRow id lhs rhs).run b = .ok R b') (hord : OperandsPrecede b.nodes)
    (hfin : FiniteScales b.nodes) {n : Node ERat} (hn : b.nodes[id]? = some n) {vars : List Nat}
    {weights : List Int} {o : ℚ} (hk : n.kind = .sum vars weights (fin o)) :
    b' = b ∧ R.FiniteCoefs ∧ (∀ t ∈ R.terms, ∃ u ∈ vars.zip weights, Row.ColumnOf b.nodes u.1 t.1) ∧
      Row.Adds (Row.empty lhs rhs) R
        (fun V => o + ((vars.zip weights).map fun t => (t.2 : ℚ) * evalNode b.nodes V t.1).sum) := by
  unfold sumRow at h
  obtain ⟨m, b₁, hm, h⟩ := run_bind_ok h
  rw [nodeAt_run, hn] at hm
  cases hm
  rw [hk] at h
  obtain ⟨rfl, -, hc, hadds, hterms⟩ := foldlM_fold_spec hord _ (fun _ _ m n _ hn => hfin m n hn)
    ((Row.finiteCoefs_empty _ _).addConstant _) ((Row.merged_empty _ _).addConstant _) h
  refine ⟨rfl, hc, fun t ht => ?_, ((Row.adds_addConstant _ o).trans hadds).congr fun V => rfl⟩
  rcases hterms t ht with ⟨t', ht', -⟩ | hcol
  · -- the row starts without terms
    exact absurd ht' List.not_mem_nil
  · exact hcol

/-- A column like a node: the next column, with the bounds of the node, integral unless the node
is fractional. -/
theorem columnLike_run {like : Nat} {m : Node ERat} (hm : b.nodes[like]? = some m) (pfx : String) :
    (columnLike like pfx).run b = .ok b.model.columns.size { b with model :=
      { b.model with columns := b.model.columns.push ⟨pfx ++ toString like,
        if m.continuous then .continuous else .integer, m.lower, m.upper, none⟩ } } := by
  unfold columnLike
  rw [run_bind, nodeAt_run, hm]
  dsimp only
  rw [addColumn_run]
  cases m.continuous <;> rfl

/-! ### Integer variables -/

/-- An integer variable with integer data: its column `x` and, for listed values with holes, the
binaries of the values. At a point that gives the new columns integer values within their bounds,
the added rows hold exactly when `x` is a value that the variable admits and each binary is on
exactly when `x` is its value. -/
theorem encodeIntVar_exact (id : Nat) (b : Builder ERat) {lo hi : Int}
    {values : Option (List Int)} (hdata : (Kind.intVar lo hi values : Kind ERat).IntegerData) :
    ∃ (D : List Int) (m : FlatModel ERat), (encodeIntVar id lo hi values).run b =
        .ok b.model.columns.size { b with model := m } ∧
      m.columns.toList = b.model.columns.toList ++ intColumn id lo hi D ::
        (valueCells b.model.columns.size D).map (fun q => valueColumn id q.1) ∧
      ∀ W, IntegralFrom m.columns b.model.columns.size W →
        (AddedRowsAdmit b { b with model := m } W ↔
          ∃ v, (Kind.intVar lo hi values : Kind ERat).Admits v ∧
            W.getD b.model.columns.size Scalar.zero = .fin v ∧
            ∀ q ∈ valueCells b.model.columns.size D,
              W.getD q.2 Scalar.zero = ofBool (decide (v = q.1))) := by
  cases values with
  | none =>
    -- the column alone, over the bounds
    refine ⟨[], { b.model with columns := b.model.columns.push (intColumn id lo hi []) }, ?_, ?_,
      fun W hW => ?_⟩
    · simp [encodeIntVar, addColumn_run, FlatModel.addColumn, intColumn, contiguous,
        ColumnName.render]
    · simp [intColumn, valueCells, contiguous]
    · have hcols : ({ b.model with columns := b.model.columns.push (intColumn id lo hi []) } :
          FlatModel ERat).columns.toList = b.model.columns.toList ++ intColumn id lo hi [] ::
            (valueCells b.model.columns.size []).map (fun q => valueColumn id q.1) := by
        simp [valueCells, contiguous]
      obtain ⟨⟨z, hz, hzlo, hzhi⟩, -⟩ := integralFrom_layout hcols hW
      refine iff_of_true (addedRowsAdmit_of_rows_eq rfl) ⟨z, ⟨hzlo, hzhi⟩, hz, fun q hq => ?_⟩
      simp [valueCells, contiguous] at hq
  | some D =>
    obtain ⟨hsorted, hlo, hhi⟩ := hdata.2.1 lo hi D rfl
    obtain ⟨m, hrun, hcols, -, -, hsem⟩ := encodeIntVar_values_spec id b hsorted.nodup hlo hhi
    exact ⟨D, m, hrun, hcols, hsem⟩

end Lowering

/-- A value that an integer variable with integer data admits lies between its bounds: listed
values are stored sorted from the lower to the upper bound. -/
theorem Kind.IntegerData.intVar_bounds {lo hi : Int} {values : Option (List Int)}
    (h : (Kind.intVar lo hi values : Kind ERat).IntegerData) {z : Int}
    (hz : (Kind.intVar lo hi values : Kind ERat).Admits z) : lo ≤ z ∧ z ≤ hi := by
  cases values with
  | none => exact hz
  | some D =>
    obtain ⟨hsorted, hlo, hhi⟩ := h.2.1 lo hi D rfl
    obtain ⟨rest, rfl⟩ := List.head?_eq_some_iff.1 hlo
    rw [List.getLast?_eq_getLast_of_ne_nil (List.cons_ne_nil lo rest), Option.some.injEq] at hhi
    have hz' : z ∈ lo :: rest := hz
    refine ⟨?_, hhi ▸ (hsorted.imp le_of_lt).rel_getLast hz'⟩
    rcases List.mem_cons.1 hz' with rfl | hr
    · exact le_rfl
    · exact (List.rel_of_pairwise_cons hsorted hr).le

section Layout

variable {id : Nat} {cols old : Array (Column ERat)} {lo hi : Int} {D : List Int}

/-- A point of the columns `old`, followed by an integer `z` between the bounds of `x{id}` and the
indicator of `z` for every binary, gives the columns of the variable integer values within their
bounds. -/
theorem exists_point_from (W : Array ERat) (hW : W.size = old.size) {z : Int}
    (hcols : cols.toList = old.toList ++ intColumn id lo hi D ::
      (valueCells old.size D).map fun q => valueColumn id q.1)
    (hz₁ : lo ≤ z) (hz₂ : z ≤ hi) :
    ∃ U, AgreeOn old.size W U ∧ IntegralFrom cols old.size U ∧
      U.getD old.size Scalar.zero = .fin z ∧
      ∀ q ∈ valueCells old.size D, U.getD q.2 Scalar.zero = ofBool (decide (z = q.1)) := by
  obtain ⟨hx, hcells⟩ := getElem?_layout hcols
  let U : Array ERat := (W.toList ++ [fin z] ++
    (valueCells old.size D).map fun q => ofBool (decide (z = q.1))).toArray
  have hUcells : ∀ q ∈ valueCells old.size D, U[q.2]? = some (ofBool (decide (z = q.1))) :=
    getElem?_cells (P := W.toList ++ [fin z]) (g := fun q => ofBool (decide (z = q.1)))
      (by simp [U]) (by simpa [hW] using map_snd_valueCells old.size D)
  have hUx : U.getD old.size Scalar.zero = .fin z := by
    simp [U, Array.getD_eq_getD_getElem?, ← hW]
  have hsize : cols.size = old.size + 1 + (valueCells old.size D).length := by
    rw [← Array.length_toList, hcols]
    simp
    omega
  refine ⟨U, fun v hv => ?_, fun j col hj hcol => ?_, hUx, fun q hq => ?_⟩
  · have hv' : v < W.toList.length := by rw [Array.length_toList, hW]; exact hv
    have hv'' : v < (W.toList ++ [fin z]).length := by simp; omega
    simp only [U, Array.getD_eq_getD_getElem?, List.getElem?_toArray,
      List.getElem?_append_left hv'', List.getElem?_append_left hv', Array.getElem?_toList]
  · have hjlt : j < cols.size := (Array.getElem?_eq_some_iff.1 hcol).1
    rcases eq_or_lt_of_le hj with rfl | hlt
    · rw [hx, Option.some.injEq] at hcol
      subst hcol
      exact ⟨z, hUx, by simpa [intColumn] using hz₁, by simpa [intColumn] using hz₂⟩
    · obtain ⟨q, hq, rfl⟩ := exists_cell_of_mem (map_snd_valueCells old.size D) hlt (by omega)
      rw [(hcells q hq).2, Option.some.injEq] at hcol
      subst hcol
      obtain ⟨w, hw, h₀, h₁⟩ := ofBool_integral (decide (z = q.1))
      refine ⟨w, ?_, h₀, h₁⟩
      rw [Array.getD_eq_getD_getElem?, hUcells q hq, Option.getD_some, hw]
  · rw [Array.getD_eq_getD_getElem?, hUcells q hq, Option.getD_some]

end Layout

namespace Builder

variable {b b₁ : Builder ERat} {val : Nat → ℚ} {id : Nat} {n : Node ERat} {e : Encoding}
  {top : Bool}

/-- A column that an integer value within its bounds fits. -/
theorem Column.fits_of_integralFrom {cols : Array (Column ERat)} {x : Nat} {W : Array ERat}
    (h : IntegralFrom cols x W) {v : Nat} {c : Column ERat} (hv : x ≤ v) (hc : cols[v]? = some c) :
    ∃ y, W.getD v Scalar.zero = fin y ∧ c.Fits y := by
  obtain ⟨z, hz, hlo, hhi⟩ := h v c hv hc
  exact ⟨z, hz, hlo, hhi, fun _ => ⟨z, rfl⟩⟩

/-- An integer variable is lowered faithfully: at a point of the grown model its column takes the
value `val` agrees with, and a point of `b` extends by the value of the variable, an integer it
admits, and the indicators of that value. -/
theorem Faithful.intVar (hctx : b.Lowerable) (hn : b.nodes[id]? = some n)
    (hnone : n.encoding = none) {lo hi : Int} {values : Option (List Int)}
    (hk : n.kind = .intVar lo hi values) (h : (encodeKind id n.kind top).run b = .ok e b₁)
    (hs₂ : (b₁.encodeAs id e).Sound) (hval : (b₁.encodeAs id e).Consistent val) :
    Faithful val b (b₁.encodeAs id e) (top = true → n.kind.Holds val) := by
  have hg := (grows_of_run (encodeKind_undoable id n.kind top) h).1
  have hdata := hctx.integer id n hn
  have hk₁ : ∀ sh base scale offset, n.kind ≠ .view sh base scale offset := by
    rw [hk]
    intro _ _ _ _ h
    cases h
  have hA : top = true → n.kind.Holds val := fun _ => by rw [hk]; trivial
  rw [hk] at h hdata
  obtain ⟨D, m, hrun, hcols, hsem⟩ := encodeIntVar_exact id b hdata
  rw [encodeKind, map_eq_pure_bind, run_bind, hrun] at h
  cases h
  have hid := unencoded_of_getElem? hn hnone
  have hself : ({ b with model := m } : Builder ERat).encodeAs id (.column b.model.columns.size)
      |>.nodes[id]? = some { n with encoding := some (.column b.model.columns.size) } :=
    getElem?_encodeAs_self hn
  refine Faithful.encodeAs hctx.sound hg rfl hid hs₂
    (fun W _ _ hAg => ⟨hAg id _ hself (by rw [hk]; rfl) rfl, hA⟩) (fun W hsize hW hR _ => ?_)
  -- the value of the variable is an integer it admits
  obtain ⟨z, hz, hadm⟩ : ∃ z : ℤ, val id = z ∧ (Kind.intVar lo hi values : Kind ERat).Admits z := by
    have hden := (hval.denotes hself rfl).1
    rw [hk] at hden
    obtain ⟨z, hz, hzD⟩ := hden
    exact ⟨z, hz, by cases values <;> exact hzD⟩
  obtain ⟨hz₁, hz₂⟩ := hdata.intVar_bounds hadm
  obtain ⟨U, hWU, hint, hUx, hUc⟩ := exists_point_from W hsize hcols hz₁ hz₂
  refine ⟨U, hWU, fun v c hv hc => Column.fits_of_integralFrom hint hv hc,
    (hsem U hint).2 ⟨z, hadm, hUx, hUc⟩, ?_⟩
  rw [evalNode_encodeAs_column (b := { b with model := m }) hn hk₁, hUx, toRat_fin, hz]

/-! ### Views -/

/-- A view is lowered faithfully: it is given no column and reads `scale · base + offset` through
its encoded base. -/
theorem Faithful.view (hctx : b.Lowerable) (hn : b.nodes[id]? = some n)
    (hnone : n.encoding = none) {sh : ViewShape} {base : Nat} {scale offset : ERat}
    (hk : n.kind = .view sh base scale offset) (hops : ∀ c ∈ n.kind.children, b.Encoded c)
    (h : (encodeKind id n.kind top).run b = .ok e b₁) (hs₂ : (b₁.encodeAs id e).Sound)
    (hval : (b₁.encodeAs id e).Consistent val) :
    Faithful val b (b₁.encodeAs id e) (top = true → n.kind.Holds val) := by
  have hA : top = true → n.kind.Holds val := fun _ => by rw [hk]; trivial
  have hlt : base < id := hctx.sound.children id n hn base (by rw [hk]; simp [Kind.children])
  rw [hk] at h hops
  cases h
  have hbase : b.Encoded base := hops base (by simp [Kind.children])
  have hid := unencoded_of_getElem? hn hnone
  have hself := getElem?_encodeAs_self (e := .affine) hn
  have hx : ({ n with encoding := some Encoding.affine } : Node ERat).expansion =
      .view base scale offset := by
    simp [Node.expansion, hk]
  -- at a point that reads the base, the view reads its value
  have hvalue : ∀ W, b.Reads val W → evalNode (b.encodeAs id .affine).nodes W id = val id := by
    intro W hR
    have hden := (hval.denotes hself rfl).1
    rw [hk] at hden
    rw [evalNode_view hself hx hlt, ((Grows.refl b).encodeAs hid _).evalNode_eq hctx.sound W hbase,
      hR base hbase]
    exact hden.symm
  refine Faithful.encodeAs hctx.sound (Grows.refl b) rfl hid hs₂
    (fun W _ hR _ => ⟨hvalue W hR, hA⟩) (fun W _ _ hR _ => ⟨W, AgreeOn.refl _ W, ?_,
      addedRowsAdmit_of_rows_eq rfl, hvalue W hR⟩)
  -- no column was added
  exact fun v c hv hc => absurd (Array.getElem?_eq_some_iff.1 hc).1 (not_lt.2 hv)

/-! ### Columns tied to a value -/

/-- A step that adds one column `x`, which `val id` fits, and one row that holds exactly when `x`
reads `f`, a quantity that points reading `val` give the value `val id`, and then encodes node
`id` by `x`, is faithful. -/
theorem Faithful.link (hctx : b.Lowerable) (hn : b.nodes[id]? = some n) (hnone : n.encoding = none)
    (hk₁ : ∀ sh base scale offset, n.kind ≠ .view sh base scale offset) {c : Column ERat}
    {R : Row ERat} {f : Array ERat → ℚ} (hg : b.Grows b₁)
    (hcols : b₁.model.columns = b.model.columns.push c)
    (hrows : b₁.model.rows = b.model.rows.push R) (hnodes : b₁.nodes = b.nodes) (hterms : ∀ t ∈ R.terms, t.1 ≤ b.model.columns.size)
    (hlink : ∀ U, R.FiniteAt U →
      (R.Admits U ↔ (U.getD b.model.columns.size Scalar.zero).toRat = f U))
    (hf : ∀ U, b.Reads val U → f U = val id) (hfits : c.Fits (val id))
    (hs₂ : (b₁.encodeAs id (.column b.model.columns.size)).Sound) :
    Faithful val b (b₁.encodeAs id (.column b.model.columns.size)) True := by
  have hid := unencoded_of_getElem? hn hnone
  have hn₁ : b₁.nodes[id]? = some n := hnodes ▸ hn
  have hadded : addedRows b b₁ = [R] := by
    simp [addedRows, hrows]
  have hsize₁ : b₁.model.columns.size = b.model.columns.size + 1 := by
    rw [hcols, Array.size_push]
  refine Faithful.encodeAs hctx.sound hg hnodes hid hs₂ (fun W hW hR _ => ⟨?_, trivial⟩)
    (fun W hsize hW hR _ => ?_)
  · -- the row holds at a point of the grown model, whose columns all read finite values
    have hfin : R.FiniteAt W := fun t ht => by
      obtain ⟨y, hy, -⟩ := hW.columns t.1 _
        (Array.getElem?_eq_getElem (by rw [hsize₁]; exact Nat.lt_succ_of_le (hterms t ht)))
      exact ⟨y, hy⟩
    have hadm := hW.rows R (by rw [hrows]; simp)
    rw [evalNode_encodeAs_column hn₁ hk₁, (hlink W hfin).1 hadm, hf W hR]
  · -- the point followed by the value of the node
    have hWU : AgreeOn b.model.columns.size W (W.push (fin (val id))) :=
      ((AgreeOn.refl _ W).push_left hsize _).symm
    have hUx : (W.push (fin (val id))).getD b.model.columns.size Scalar.zero = fin (val id) := by
      rw [← hsize, getD_push_size]
    have hfin : R.FiniteAt (W.push (fin (val id))) := fun t ht => by
      rcases Nat.lt_or_eq_of_le (hterms t ht) with hlt | heq
      · obtain ⟨y, hy, -⟩ := hW.columns t.1 _ (Array.getElem?_eq_getElem hlt)
        exact ⟨y, (hWU t.1 hlt).symm.trans hy⟩
      · exact ⟨val id, heq ▸ hUx⟩
    refine ⟨W.push (fin (val id)), hWU, fun v c' hv hc' => ?_, ?_, ?_⟩
    · have hvx : v = b.model.columns.size := by
        have := (Array.getElem?_eq_some_iff.1 hc').1
        omega
      subst hvx
      rw [hcols, Array.getElem?_push_size, Option.some.injEq] at hc'
      exact ⟨val id, hUx, hc' ▸ hfits⟩
    · intro R' hR'
      rw [hadded, List.mem_singleton] at hR'
      subst hR'
      rw [hlink _ hfin, hUx, toRat_fin, hf _ (hR.agree hctx.sound hWU)]
    · rw [evalNode_encodeAs_column hn₁ hk₁, hUx, toRat_fin]

/-- The node a step encodes takes, under a `val` the step leaves consistent, a value it denotes,
an integer within its bounds. -/
theorem Consistent.self (hval : (b₁.encodeAs id e).Consistent val) (hn₁ : b₁.nodes[id]? = some n) :
    n.kind.Denotes val (val id) ∧ (∃ z : ℤ, val id = z) ∧
      Encloses n.lower n.upper n.continuous (val id) :=
  hval id { n with encoding := some e } (getElem?_encodeAs_self hn₁) rfl

/-- An integer within the bounds of a node fits a column like the node. -/
theorem Column.fits_like {m : Node ERat} {x : ℚ} (hz : ∃ z : ℤ, x = z)
    (henc : Encloses m.lower m.upper m.continuous x) (name : String) :
    Column.Fits ⟨name, if m.continuous then .continuous else .integer, m.lower, m.upper, none⟩ x :=
  ⟨henc.1, henc.2.1, fun _ => hz⟩

/-! ### Sums -/

/-- A sum of encoded operands is lowered faithfully: at top level its row of derived bounds holds
at the value of the sum, which stays affine; nested its column reads the value. -/
theorem Faithful.sum (hctx : b.Lowerable) (hn : b.nodes[id]? = some n)
    (hnone : n.encoding = none) {vars : List Nat} {weights : List Int} {offset : ERat}
    (hk : n.kind = .sum vars weights offset) (hops : ∀ c ∈ n.kind.children, b.Encoded c)
    (h : (encodeKind id n.kind top).run b = .ok e b₁) (hs₂ : (b₁.encodeAs id e).Sound)
    (hval : (b₁.encodeAs id e).Consistent val) :
    Faithful val b (b₁.encodeAs id e) (top = true → n.kind.Holds val) := by
  have hA : (top = true → n.kind.Holds val) ↔ True := iff_of_true (fun _ => by rw [hk]; trivial) trivial
  have hg := (grows_of_run (encodeKind_undoable id n.kind top) h).1
  obtain ⟨o, rfl⟩ : ∃ o : ℤ, offset = fin o := by
    have hint := (hctx.integer id n hn).1
    rw [hk] at hint
    exact hint
  have hk₁ : ∀ sh base scale offset, n.kind ≠ .view sh base scale offset := by
    rw [hk]
    intro _ _ _ _ h
    cases h
  have hid := unencoded_of_getElem? hn hnone
  rw [hk] at h hops
  -- the operands are encoded, below the sum
  have hvars : ∀ t ∈ vars.zip weights, b.Encoded t.1 ∧ t.1 < id := fun t ht =>
    ⟨hops t.1 (List.of_mem_zip ht).1,
      hctx.sound.children id n hn t.1 (by rw [hk]; exact (List.of_mem_zip ht).1)⟩
  -- the value of the sum at a point reading `val`, and its terms on the columns of `b`
  have hsum : ∀ W, b.Reads val W → (o : ℚ) +
      ((vars.zip weights).map fun t => (t.2 : ℚ) * evalNode b.nodes W t.1).sum =
      (o : ℚ) + ((vars.zip weights).map fun t => (t.2 : ℚ) * val t.1).sum := by
    intro W hR
    congr 2
    exact List.map_congr_left fun t ht => by rw [hR t.1 (hvars t ht).1]
  have hcolumns : ∀ {R : Row ERat}, (∀ t ∈ R.terms, ∃ u ∈ vars.zip weights,
      Row.ColumnOf b.nodes u.1 t.1) → ∀ t ∈ R.terms, t.1 < b.model.columns.size := by
    intro R hterms t ht
    obtain ⟨u, hu, hcol⟩ := hterms t ht
    exact hctx.sound.columnOf_lt (hvars u hu).1 hcol
  unfold encodeKind encodeSum at h
  dsimp only at h
  obtain ⟨n', b₀, hn', h⟩ := run_bind_ok h
  rw [nodeAt_run, hn] at hn'
  cases hn'
  cases top with
  | true =>
    rw [if_pos rfl] at h
    obtain ⟨R, b₂, hR, h₂⟩ := run_bind_ok h
    obtain ⟨hb₂, hc, hterms, hadds⟩ :=
      sumRow_spec hR hctx.sound.children hctx.finiteScales hn hk
    subst b₂
    obtain ⟨_, b₃, hp, h₃⟩ := run_bind_ok h₂
    rw [post_run] at hp
    cases hp
    cases h₃
    have hself := getElem?_encodeAs_self (b := { b with model := b.model.addRow R }) (e := .affine) hn
    have hden := hval.denotes hself rfl
    have henc := hval.encloses hself rfl
    rw [hk] at hden
    have hT : val id = (o : ℚ) + ((vars.zip weights).map fun t => (t.2 : ℚ) * val t.1).sum := hden.1
    have hx : ({ n with encoding := some Encoding.affine } : Node ERat).expansion =
        .sum (vars.zip weights) (fin o) := by
      simp [Node.expansion, hk]
    -- the affine sum reads its value at a point that reads its operands
    have hvalue : ∀ W, b.Reads val W →
        evalNode ({ b with model := b.model.addRow R }.encodeAs id .affine).nodes W id = val id := by
      intro W hR
      rw [evalNode_sum hself hx fun t ht => (hvars t ht).2, hT, ← hsum W hR, toRat_fin]
      congr 2
      exact List.map_congr_left fun t ht => by
        rw [(hg.encodeAs hid _).evalNode_eq hctx.sound W (hvars t ht).1]
    refine (Faithful.encodeAs hctx.sound hg rfl hid hs₂ (fun W _ hR _ => ⟨hvalue W hR, trivial⟩)
      (fun W _ hW hR _ => ⟨W, AgreeOn.refl _ W, fun v c hv hc => ?_, ?_, hvalue W hR⟩)).of_iff hA.symm
    · exact absurd (Array.getElem?_eq_some_iff.1 hc).1 (not_lt.2 hv)
    · -- the row of derived bounds holds at the value of the sum
      have hfin : R.FiniteAt W := fun t ht => by
        obtain ⟨y, hy, -⟩ := hW.columns t.1 _ (Array.getElem?_eq_getElem (hcolumns hterms t ht))
        exact ⟨y, hy⟩
      rw [addedRowsAdmit_addRow, hadds.admits_iff hc hfin, Row.value_empty, zero_add, hsum W hR,
        ← hT]
      exact ⟨henc.1, henc.2.1⟩
  | false =>
    rw [if_neg Bool.false_ne_true] at h
    obtain ⟨s, b₂, hs, h₂⟩ := run_bind_ok h
    rw [columnLike_run hn] at hs
    cases hs
    obtain ⟨R, b₃, hR, h₃⟩ := run_bind_ok h₂
    obtain ⟨hb₃, hc, hterms, hadds⟩ :=
      sumRow_spec hR hctx.sound.children hctx.finiteScales hn hk
    subst b₃
    obtain ⟨_, b₄, hp, h₄⟩ := run_bind_ok h₃
    rw [post_run] at hp
    cases hp
    cases h₄
    have hself := hval.self hn
    have hT : val id = (o : ℚ) + ((vars.zip weights).map fun t => (t.2 : ℚ) * val t.1).sum := by
      have hden := hself.1.1
      rw [hk] at hden
      exact hden
    have hadds' : Row.Adds (Row.empty Scalar.zero Scalar.zero)
        (R.addVar b.model.columns.size (-Scalar.one)) _ :=
      hadds.trans (Row.adds_addVar hc b.model.columns.size (-1))
    refine (Faithful.link hctx hn hnone hk₁ hg rfl rfl rfl (fun t ht => ?_) (fun U hU => ?_)
      (fun U hR => (hsum U hR).trans hT.symm) (Column.fits_like hself.2.1 hself.2.2 _) hs₂).of_iff
      hA.symm
    · rcases Row.mem_addVar ht with heq | ⟨t', ht', heq⟩
      · exact heq.le
      · exact heq ▸ (hcolumns hterms t' ht').le
    · rw [hadds'.admits_zero_iff (hc.addVar _ _) hU]
      constructor <;> intro h' <;> beta_reduce at h' ⊢ <;> linarith

/-! ### Objectives -/

/-- An objective over an encoded expression is lowered faithfully: its column reads the value of
the expression. -/
theorem Faithful.objective (hctx : b.Lowerable) (hn : b.nodes[id]? = some n)
    (hnone : n.encoding = none) {sense : Sense} {expr : Nat} (hk : n.kind = .objective sense expr)
    (hops : ∀ c ∈ n.kind.children, b.Encoded c) (h : (encodeKind id n.kind top).run b = .ok e b₁)
    (hs₂ : (b₁.encodeAs id e).Sound) (hval : (b₁.encodeAs id e).Consistent val) :
    Faithful val b (b₁.encodeAs id e) (top = true → n.kind.Holds val) := by
  have hA : (top = true → n.kind.Holds val) ↔ True := iff_of_true (fun _ => by rw [hk]; trivial) trivial
  have hg := (grows_of_run (encodeKind_undoable id n.kind top) h).1
  have hk₁ : ∀ sh base scale offset, n.kind ≠ .view sh base scale offset := by
    rw [hk]
    intro _ _ _ _ h
    cases h
  have hid := unencoded_of_getElem? hn hnone
  rw [hk] at h hops
  have hexpr : b.Encoded expr := hops expr (by simp [Kind.children])
  obtain ⟨m, hm, hme⟩ := hexpr
  unfold encodeKind encodeObjective at h
  dsimp only at h
  split at h
  · obtain ⟨_, _, hthrow, -⟩ := run_bind_ok h
    cases hthrow
  obtain ⟨b₀, b₂, hget, h⟩ := run_bind_ok h
  cases hget
  split at h
  · obtain ⟨_, _, hthrow, -⟩ := run_bind_ok h
    cases hthrow
  obtain ⟨x, b₄, hx, h⟩ := run_bind_ok h
  -- the new column keeps the arena
  have hnodes₄ : b₄.nodes = b.nodes := by
    rw [columnLike_run hm] at hx
    cases hx
    rfl
  have hord₄ : OperandsPrecede b₄.nodes := hnodes₄ ▸ hctx.sound.children
  have hbelow₄ : FiniteBelow b₄.nodes expr := fun m n _ hn => hctx.finiteScales m n (hnodes₄ ▸ hn)
  have hx₄ : x = b.model.columns.size := by
    rw [columnLike_run hm] at hx
    cases hx
    rfl
  subst hx₄
  obtain ⟨R, b₅, hR, h⟩ := run_bind_ok h
  obtain ⟨_, b₆, hp, h⟩ := run_bind_ok h
  rw [post_run] at hp
  cases hp
  obtain ⟨_, b₇, hmod, h⟩ := run_bind_ok h
  cases hmod
  cases h
  -- the row `x - expr = 0`
  have hR' : (fold ((Row.empty Scalar.zero Scalar.zero).addVar b.model.columns.size (fin 1)) expr
      (fin (-1))).run b₄ = .ok R b₅ := hR
  obtain ⟨rfl, -, hc, hadds, hterms⟩ := fold_spec hord₄ hbelow₄
    ((Row.finiteCoefs_empty _ _).addVar _ 1) ((Row.merged_empty _ _).addVar _ _) hR'
  rw [hnodes₄] at hadds hterms
  rw [columnLike_run hm] at hx
  cases hx
  have hadds' := (Row.adds_addVar (Row.finiteCoefs_empty _ _) b.model.columns.size 1).trans hadds
  -- the objective takes the value of its expression, which fits a column like it
  have hT : val id = val expr := by
    have hden := (hval.self hn).1.1
    rw [hk] at hden
    exact hden
  obtain ⟨-, hz, henc⟩ := (hg.encodeAs hid _).consistent hval expr m hm hme
  refine (Faithful.link hctx hn hnone hk₁ hg rfl rfl rfl (fun t ht => ?_) (fun U hU => ?_)
    (fun U hR => (hR expr ⟨m, hm, hme⟩).trans hT.symm)
    (Column.fits_like (hT ▸ hz) (hT ▸ henc) _) hs₂).of_iff hA.symm
  · rcases hterms t ht with ⟨t', ht', heq⟩ | hcol
    · rcases Row.mem_addVar ht' with heq' | hold
      · exact (heq ▸ heq').le
      · obtain ⟨t'', ht'', -⟩ := hold
        exact absurd ht'' List.not_mem_nil
    · exact (hctx.sound.columnOf_lt ⟨m, hm, hme⟩ hcol).le
  · rw [hadds'.admits_zero_iff hc hU]
    constructor <;> intro h' <;> beta_reduce at h' ⊢ <;> linarith

end Builder

end MipLowering
