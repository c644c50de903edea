import MipLowering.Proofs.Lowering.Connectives

/-!
# Disjunctive pairs are lowered exactly

`NoOverlap(first, second, [d₀, d₁])` asks that one of two orderings hold: `first + d₀ ≤ second`
(*before*) or `second + d₁ ≤ first` (*after*). Each ordering is lowered from its fragment
(`Lowering.difference`), whose summed side less its right-hand side reads `first + d₀ - second`
(resp. `second + d₁ - first`) at every assignment of the operands' columns.

* At top level a fresh order binary switches two big-M rows of opposite polarity: the rows hold
  for some value of it exactly when one of the orderings holds (`encodeNoOverlap_top_spec`).
* Nested, each ordering gets an indicator from `reifyLe` and the node's indicator is their
  disjunction (`postOr`). The rows hold exactly when each ordering's difference lies outside its
  separation gap `(0, sep)`, each ordering's indicator is its truth, and the node's indicator is
  their disjunction (`encodeNoOverlap_nested_spec`). The separation is `1` for an integral
  fragment when integral separation is on, else `epsilon`: with it off and `epsilon > 1`, an
  integral difference of `1` lies in the gap and no value of the indicators is left
  (`wideGapBuilder_admits_none`).

## Main results

* `MipLowering.Lowering.encodeNoOverlap_exact` — both levels for one assignment.
-/

namespace MipLowering

open ERat

namespace Lowering

section NoOverlap

variable {b b' : Builder ERat} {id first second : Nat} {coefs : List Int} {e : Encoding}

theorem coef_eq (coefs : List Int) (i : Nat) :
    (coef coefs i : ERat) = .fin ((coefs[i]?.getD 0 : Int) : Rat) := rfl

/-- The fragment of an ordering `a + d ≤ c` at an assignment of the columns below `a` and `c`:
non-zero coefficients, within bounds, and the summed side less the right-hand side `β` is
`a + d - c`. -/
theorem ordering_spec (hord : OperandsPrecede b.nodes) {a c : Nat} (ha : FiniteBelow b.nodes a)
    (hc : FiniteBelow b.nodes c) {d : Rat} {expr : Row ERat}
    (h : (difference a (.node c) (.fin d)).run b = .ok expr b') {V : Array ERat}
    (hV : ∀ v, Row.ColumnOf b.nodes a v ∨ Row.ColumnOf b.nodes c v → InBounds b.model.columns V v) :
    b' = b ∧ expr.NonzeroCoefs ∧ expr.Within b.model.columns V ∧
      ∃ β : Rat, expr.rhs = .fin β ∧
        (expr.value V ≤ β ↔ evalNode b.nodes V a + d ≤ evalNode b.nodes V c) ∧
        expr.value V - β = evalNode b.nodes V a + d - evalNode b.nodes V c := by
  obtain ⟨hb, hm, hfin, hterms, β, -, hr, hv⟩ :=
    difference_spec hord ha (show Operand.Finite b.nodes (.node c) from hc) h
  have hval : expr.value V - β = evalNode b.nodes V a + d - evalNode b.nodes V c := by
    rw [hv V, Operand.value]
    ring
  refine ⟨hb, hm.nonzeroCoefs hfin, fun t ht => hV t.1 (hterms t ht), β, hr, ?_, hval⟩
  rw [← sub_nonpos, hval, sub_nonpos]

/-- A disjunctive pair at top level: the rows hold, for some value of the order binary, exactly
when one of the orderings holds. -/
theorem encodeNoOverlap_top_spec (hord : OperandsPrecede b.nodes)
    (hfirst : FiniteBelow b.nodes first) (hsecond : FiniteBelow b.nodes second) {V : Array ERat}
    (hsize : V.size = b.model.columns.size)
    (hV : ∀ v, Row.ColumnOf b.nodes first v ∨ Row.ColumnOf b.nodes second v →
      InBounds b.model.columns V v)
    (h : (encodeNoOverlap id first second coefs true).run b = .ok e b') :
    e = .posted ∧ ((∃ o, AddedRowsAdmit b b' (V.push (ofBool o))) ↔
      evalNode b.nodes V first + ((coefs[0]?.getD 0 : Int) : Rat) ≤ evalNode b.nodes V second ∨
        evalNode b.nodes V second + ((coefs[1]?.getD 0 : Int) : Rat) ≤
          evalNode b.nodes V first) := by
  obtain ⟨before, b₁, hb, hk⟩ :=
    @run_bind_ok ERat _ _ (difference first (.node second) (coef coefs 0)) _ b b' e h
  obtain ⟨hb₁, hnzb, hWb, β₀, hrb, hleb, -⟩ := ordering_spec hord hfirst hsecond hb hV
  rw [hb₁] at hk
  obtain ⟨after, b₂, ha, hk⟩ := run_bind_ok hk
  obtain ⟨hb₂, hnza, hWa, β₁, hra, hlea, -⟩ :=
    ordering_spec hord hsecond hfirst ha fun v hv => hV v hv.symm
  rw [hb₂, if_pos rfl] at hk
  obtain ⟨o, b₃, h₃, hk⟩ := run_bind_ok hk
  obtain ⟨_, b₄, h₄, hk⟩ := run_bind_ok hk
  obtain ⟨_, b₅, h₅, hk⟩ := run_bind_ok hk
  cases hk
  rw [hrb] at h₄
  rw [hra] at h₅
  obtain ⟨hs₄, hsem₄⟩ := implyLe_lit_spec hnzb h₄
  obtain ⟨hs₅, hsem₅⟩ := implyLe_lit_spec hnza h₅
  obtain ⟨rfl, ⟨col, hcols⟩, -, hstart⟩ := indicator_spec h₃ (hs₄.1.trans hs₅.1)
  -- the order binary `o` selects the ordering whose big-M row binds
  have hrows : ∀ ob, AddedRowsAdmit b b' (V.push (ofBool ob)) ↔
      (ob = true → before.value V ≤ β₀) ∧ (ob = false → after.value V ≤ β₁) := fun ob => by
    have ho : (V.push (ofBool ob)).getD b.model.columns.size Scalar.zero = ofBool ob := by
      rw [← hsize, getD_push_size]
    rw [hstart, addedRowsAdmit_trans hs₄.1 hs₅.1,
      hsem₄ _ ob (hcols ▸ hWb.push_fresh hsize col _) ho,
      hsem₅ _ ob (hs₄.2 ▸ hcols ▸ hWa.push_fresh hsize col _) ho, Row.value_push hWb hsize,
      Row.value_push hWa hsize]
  refine ⟨rfl, ?_⟩
  simp only [hrows, Bool.exists_bool, Bool.false_eq_true, Bool.true_eq_false, false_implies,
    forall_const, true_and, and_true, hleb, hlea]
  exact or_comm

/-- The two rows of `reifyLe` on a fragment whose summed side reads `β + δ`: `z ⇒ δ ≤ 0`,
`¬z ⇒ δ ≥ s`. -/
theorem indicator_pair_iff {v β δ s : Rat} (hs : 0 < s) (hv : v = β + δ) (zb : Bool) :
    ((zb = true → v ≤ β) ∧ (zb = false → β + s ≤ v)) ↔
      ¬(0 < δ ∧ δ < s) ∧ (zb = true ↔ δ ≤ 0) := by
  subst hv
  simp only [add_le_iff_nonpos_right, add_le_add_iff_left]
  exact upper_pair_iff hs zb

/-- A disjunctive pair nested, read at the two orderings' indicators `zb`, `za` and the node's
indicator `z`: the rows hold exactly when each ordering's difference lies outside its gap and its
indicator is its truth, and `z` is their disjunction. -/
theorem encodeNoOverlap_nested_spec (hord : OperandsPrecede b.nodes) {ε : Rat}
    (hε : b.config.epsilon = .fin ε) (hεpos : 0 < ε) (hfirst : FiniteBelow b.nodes first)
    (hsecond : FiniteBelow b.nodes second) {V : Array ERat} (hsize : V.size = b.model.columns.size)
    (hV : ∀ v, Row.ColumnOf b.nodes first v ∨ Row.ColumnOf b.nodes second v →
      InBounds b.model.columns V v)
    (h : (encodeNoOverlap id first second coefs false).run b = .ok e b') :
    e = .column (b.model.columns.size + 2) ∧ ∃ before after : Row ERat,
      (difference first (.node second) (coef coefs 0)).run b = .ok before b ∧
      (difference second (.node first) (coef coefs 1)).run b = .ok after b ∧
      ∀ zb za z : Bool,
        AddedRowsAdmit b b' (((V.push (ofBool zb)).push (ofBool za)).push (ofBool z)) ↔
          (¬(0 < evalNode b.nodes V first + ((coefs[0]?.getD 0 : Int) : Rat) -
                evalNode b.nodes V second ∧
              evalNode b.nodes V first + ((coefs[0]?.getD 0 : Int) : Rat) -
                evalNode b.nodes V second < separationOf b before ε) ∧
            (zb = true ↔
              evalNode b.nodes V first + ((coefs[0]?.getD 0 : Int) : Rat) ≤
                evalNode b.nodes V second)) ∧
          (¬(0 < evalNode b.nodes V second + ((coefs[1]?.getD 0 : Int) : Rat) -
                evalNode b.nodes V first ∧
              evalNode b.nodes V second + ((coefs[1]?.getD 0 : Int) : Rat) -
                evalNode b.nodes V first < separationOf b after ε) ∧
            (za = true ↔
              evalNode b.nodes V second + ((coefs[1]?.getD 0 : Int) : Rat) ≤
                evalNode b.nodes V first)) ∧
          (z = true ↔ zb = true ∨ za = true) := by
  obtain ⟨before, b₁, hb, hk⟩ :=
    @run_bind_ok ERat _ _ (difference first (.node second) (coef coefs 0)) _ b b' e h
  obtain ⟨hb₁, hnzb, hWb, β₀, hrb, -, hvb⟩ := ordering_spec hord hfirst hsecond hb hV
  rw [hb₁] at hk hb
  obtain ⟨after, b₂, ha, hk⟩ := run_bind_ok hk
  obtain ⟨hb₂, hnza, hWa, β₁, hra, -, hva⟩ :=
    ordering_spec hord hsecond hfirst ha fun v hv => hV v hv.symm
  rw [hb₂, if_neg Bool.false_ne_true] at hk
  rw [hb₂] at ha
  obtain ⟨zb', b₃, h₃, hk⟩ := run_bind_ok hk
  obtain ⟨za', b₄, h₄, hk⟩ := run_bind_ok hk
  obtain ⟨z', b₅, h₅, hk⟩ := run_bind_ok hk
  obtain ⟨_, b₆, h₆, hk⟩ := run_bind_ok hk
  cases hk
  -- the indicators of the two orderings, then the node's indicator and its disjunction rows
  obtain ⟨rfl, hconf₃, hnodes₃, ⟨col₃, hcols₃⟩, hpre₃, hsem₃⟩ :=
    reifyLe_spec hε hnzb hrb (fun t ht => hWb.lt_size ht) h₃
  have hWa₃ : after.Within b₃.model.columns V := hcols₃ ▸ hWa.push_column col₃
  obtain ⟨rfl, -, hnodes₄, ⟨col₄, hcols₄⟩, hpre₄, hsem₄⟩ :=
    reifyLe_spec (hconf₃ ▸ hε) hnza hra (fun t ht => hWa₃.lt_size ht) h₄
  obtain ⟨rfl, -, hrows₅, col₅, -⟩ := indicator_run_ok h₅
  have hord₅ : OperandsPrecede b₅.nodes := by
    rw [indicator_nodes h₅, hnodes₄, hnodes₃]
    exact hord
  obtain ⟨hs₆, hsem₆⟩ := postOr_spec hord₅ (by trivial) (by trivial) h₆
  rw [separationOf_push hconf₃ hcols₃ (fun t ht => hWa.lt_size ht)] at hsem₄
  refine ⟨by rw [hcols₄, hcols₃]; simp, before, after, hb, ha, fun zb za z => ?_⟩
  -- the assignment extended by the three indicators
  have hext : ∀ i < V.size, (((V.push (ofBool zb)).push (ofBool za)).push (ofBool z)).getD i
      Scalar.zero = V.getD i Scalar.zero := fun i hi => by
    rw [getD_push_of_lt (by simp; omega), getD_push_of_lt (by simp; omega), getD_push_of_lt hi]
  obtain ⟨hWbW, hvalb⟩ := hWb.extend hsize hext
  obtain ⟨hWaW, hvala⟩ := hWa.extend hsize hext
  have hzb : (((V.push (ofBool zb)).push (ofBool za)).push (ofBool z)).getD
      b.model.columns.size Scalar.zero = ofBool zb := by
    rw [getD_push_of_lt (by simp; omega), getD_push_of_lt (by simp; omega), ← hsize,
      getD_push_size]
  have hza : (((V.push (ofBool zb)).push (ofBool za)).push (ofBool z)).getD
      b₃.model.columns.size Scalar.zero = ofBool za := by
    rw [getD_push_of_lt (by simp [hcols₃]; omega), hcols₃, Array.size_push, ← hsize,
      ← Array.size_push, getD_push_size]
  have hz : (((V.push (ofBool zb)).push (ofBool za)).push (ofBool z)).getD
      b₄.model.columns.size Scalar.zero = ofBool z := by
    rw [hcols₄, hcols₃, Array.size_push, Array.size_push, ← hsize, ← Array.size_push,
      ← Array.size_push, getD_push_size]
  have h45 : AddedRowsAdmit b₄ b' (((V.push (ofBool zb)).push (ofBool za)).push (ofBool z)) ↔
      AddedRowsAdmit b₅ b' (((V.push (ofBool zb)).push (ofBool za)).push (ofBool z)) := by
    rw [addedRowsAdmit_trans (hrows₅ ▸ List.prefix_refl _) hs₆.1]
    exact ⟨fun h => h.2, fun h => ⟨addedRowsAdmit_of_rows_eq hrows₅, h⟩⟩
  rw [addedRowsAdmit_trans hpre₃ (hpre₄.trans (hrows₅ ▸ hs₆.1)),
    addedRowsAdmit_trans hpre₄ (hrows₅ ▸ hs₆.1), h45, hsem₃ _ zb hWbW hzb,
    hsem₄ _ za (hcols₃ ▸ hWaW.push_column col₃) hza,
    hsem₆ _ ⟨_, hz⟩ (fun v hv => ⟨_, hv ▸ hzb⟩) (fun v hv => ⟨_, hv ▸ hza⟩),
    indicator_pair_iff (separationOf_pos hεpos) (hvalb.trans (eq_add_of_sub_eq' hvb)) zb,
    indicator_pair_iff (separationOf_pos hεpos) (hvala.trans (eq_add_of_sub_eq' hva)) za]
  simp only [Reading.value, hzb, hza, hz, or_bits_iff, sub_nonpos]

/-- Disjunctive pairs are lowered exactly. Read with exact arithmetic, for operands whose views
and sums have finite scales and offsets, and an assignment `V` that gives the columns below both
operands finite values within their bounds, with `x`, `y` the operands' values and `d₀`, `d₁`
the pair's coefficients:

* at top level the rows hold for some value of the order binary exactly when `x + d₀ ≤ y` or
  `y + d₁ ≤ x`;
* nested, at each value of the orderings' indicators `zb`, `za` and the node's indicator `z`,
  they hold exactly when each ordering's difference lies outside its gap `(0, sep)` and its
  indicator is its truth, and `z` is their disjunction. -/
theorem encodeNoOverlap_exact (hord : OperandsPrecede b.nodes) {ε : Rat}
    (hε : b.config.epsilon = .fin ε) (hεpos : 0 < ε) (hfirst : FiniteBelow b.nodes first)
    (hsecond : FiniteBelow b.nodes second) {V : Array ERat} (hsize : V.size = b.model.columns.size)
    (hV : ∀ v, Row.ColumnOf b.nodes first v ∨ Row.ColumnOf b.nodes second v →
      InBounds b.model.columns V v) :
    (∀ e b', (encodeNoOverlap id first second coefs true).run b = .ok e b' → e = .posted ∧
      ((∃ o, AddedRowsAdmit b b' (V.push (ofBool o))) ↔
        evalNode b.nodes V first + ((coefs[0]?.getD 0 : Int) : Rat) ≤ evalNode b.nodes V second ∨
          evalNode b.nodes V second + ((coefs[1]?.getD 0 : Int) : Rat) ≤
            evalNode b.nodes V first)) ∧
    (∀ e b', (encodeNoOverlap id first second coefs false).run b = .ok e b' →
      e = .column (b.model.columns.size + 2) ∧ ∃ before after : Row ERat,
        (difference first (.node second) (coef coefs 0)).run b = .ok before b ∧
        (difference second (.node first) (coef coefs 1)).run b = .ok after b ∧
        ∀ zb za z : Bool,
          AddedRowsAdmit b b' (((V.push (ofBool zb)).push (ofBool za)).push (ofBool z)) ↔
            (¬(0 < evalNode b.nodes V first + ((coefs[0]?.getD 0 : Int) : Rat) -
                  evalNode b.nodes V second ∧
                evalNode b.nodes V first + ((coefs[0]?.getD 0 : Int) : Rat) -
                  evalNode b.nodes V second < separationOf b before ε) ∧
              (zb = true ↔
                evalNode b.nodes V first + ((coefs[0]?.getD 0 : Int) : Rat) ≤
                  evalNode b.nodes V second)) ∧
            (¬(0 < evalNode b.nodes V second + ((coefs[1]?.getD 0 : Int) : Rat) -
                  evalNode b.nodes V first ∧
                evalNode b.nodes V second + ((coefs[1]?.getD 0 : Int) : Rat) -
                  evalNode b.nodes V first < separationOf b after ε) ∧
              (za = true ↔
                evalNode b.nodes V second + ((coefs[1]?.getD 0 : Int) : Rat) ≤
                  evalNode b.nodes V first)) ∧
            (z = true ↔ zb = true ∨ za = true)) :=
  ⟨fun _ _ h => encodeNoOverlap_top_spec hord hfirst hsecond hsize hV h,
    fun _ _ h => encodeNoOverlap_nested_spec hord hε hεpos hfirst hsecond hsize hV h⟩

end NoOverlap

/-! ### Two integer columns -/

/-- Integers `x, y ∈ [0, 3]` on columns `0` and `1`. -/
def pairNodes : Array (Node ERat) :=
  #[⟨.intVar 0 3 none, .fin 0, .fin 3, false, some (.column 0)⟩,
    ⟨.intVar 0 3 none, .fin 0, .fin 3, false, some (.column 1)⟩]

/-- The two columns of `pairNodes` under the default configuration. -/
def pairBuilder : Builder ERat :=
  { Builder.new with
    nodes := pairNodes
    model := { columns := #[⟨"x0", .integer, .fin 0, .fin 3, none⟩,
      ⟨"x1", .integer, .fin 0, .fin 3, none⟩] } }

theorem pairNodes_operandsPrecede : OperandsPrecede pairNodes := by
  intro i n hn c hc
  rcases i with _ | _ | i
  · simp only [pairNodes, List.getElem?_toArray, List.getElem?_cons_zero, Option.some.injEq] at hn
    subst hn
    simp [Kind.children] at hc
  · simp only [pairNodes, List.getElem?_toArray, List.getElem?_cons_succ, List.getElem?_cons_zero,
      Option.some.injEq] at hn
    subst hn
    simp [Kind.children] at hc
  · simp [pairNodes] at hn

/-- `x = 1` and `y = 0` lie within the bounds of both columns. -/
theorem pairBuilder_inBounds {v : Nat}
    (hv : Row.ColumnOf pairNodes 0 v ∨ Row.ColumnOf pairNodes 1 v) :
    InBounds pairBuilder.model.columns #[.fin 1, .fin 0] v := by
  rcases hv with hv | hv
  · rw [columnOf_of_column (n := pairNodes[0]) rfl rfl hv]
    exact ⟨⟨"x0", .integer, .fin 0, .fin 3, none⟩, 1, rfl, rfl, fin_le_fin.2 (by norm_num),
      fin_le_fin.2 (by norm_num)⟩
  · rw [columnOf_of_column (n := pairNodes[1]) rfl rfl hv]
    exact ⟨⟨"x1", .integer, .fin 0, .fin 3, none⟩, 0, rfl, rfl, fin_le_fin.2 (by norm_num),
      fin_le_fin.2 (by norm_num)⟩

/-- The pair `NoOverlap(x, y, [0, 0])` at `x = 1`, `y = 0`, lowered at either level. -/
theorem pairBuilder_noOverlap_exact :
    OperandsPrecede pairBuilder.nodes ∧ pairBuilder.config.epsilon = .fin 1e-6 ∧
      (0 : Rat) < 1e-6 ∧ FiniteBelow pairBuilder.nodes 0 ∧ FiniteBelow pairBuilder.nodes 1 ∧
      (#[.fin 1, .fin 0] : Array ERat).size = pairBuilder.model.columns.size ∧
      (∀ v, Row.ColumnOf pairBuilder.nodes 0 v ∨ Row.ColumnOf pairBuilder.nodes 1 v →
        InBounds pairBuilder.model.columns #[.fin 1, .fin 0] v) ∧
      ((∀ e b', (encodeNoOverlap 2 0 1 [0, 0] true).run pairBuilder = .ok e b' → e = .posted ∧
        ((∃ o, AddedRowsAdmit pairBuilder b' ((#[.fin 1, .fin 0] : Array ERat).push (ofBool o))) ↔
          evalNode pairBuilder.nodes #[.fin 1, .fin 0] 0 + ((([0, 0] : List Int)[0]?.getD 0 : Int) : Rat) ≤
              evalNode pairBuilder.nodes #[.fin 1, .fin 0] 1 ∨
            evalNode pairBuilder.nodes #[.fin 1, .fin 0] 1 + ((([0, 0] : List Int)[1]?.getD 0 : Int) : Rat) ≤
              evalNode pairBuilder.nodes #[.fin 1, .fin 0] 0)) ∧
      (∀ e b', (encodeNoOverlap 2 0 1 [0, 0] false).run pairBuilder = .ok e b' →
        e = .column (pairBuilder.model.columns.size + 2) ∧ ∃ before after : Row ERat,
          (difference 0 (.node 1) (coef [0, 0] 0)).run pairBuilder = .ok before pairBuilder ∧
          (difference 1 (.node 0) (coef [0, 0] 1)).run pairBuilder = .ok after pairBuilder ∧
          ∀ zb za z : Bool, AddedRowsAdmit pairBuilder b'
              ((((#[.fin 1, .fin 0] : Array ERat).push (ofBool zb)).push (ofBool za)).push
                (ofBool z)) ↔
            (¬(0 < evalNode pairBuilder.nodes #[.fin 1, .fin 0] 0 +
                    ((([0, 0] : List Int)[0]?.getD 0 : Int) : Rat) - evalNode pairBuilder.nodes #[.fin 1, .fin 0] 1 ∧
                  evalNode pairBuilder.nodes #[.fin 1, .fin 0] 0 + ((([0, 0] : List Int)[0]?.getD 0 : Int) : Rat) -
                    evalNode pairBuilder.nodes #[.fin 1, .fin 0] 1 <
                  separationOf pairBuilder before 1e-6) ∧
                (zb = true ↔ evalNode pairBuilder.nodes #[.fin 1, .fin 0] 0 +
                  ((([0, 0] : List Int)[0]?.getD 0 : Int) : Rat) ≤ evalNode pairBuilder.nodes #[.fin 1, .fin 0] 1)) ∧
              (¬(0 < evalNode pairBuilder.nodes #[.fin 1, .fin 0] 1 +
                    ((([0, 0] : List Int)[1]?.getD 0 : Int) : Rat) - evalNode pairBuilder.nodes #[.fin 1, .fin 0] 0 ∧
                  evalNode pairBuilder.nodes #[.fin 1, .fin 0] 1 + ((([0, 0] : List Int)[1]?.getD 0 : Int) : Rat) -
                    evalNode pairBuilder.nodes #[.fin 1, .fin 0] 0 <
                  separationOf pairBuilder after 1e-6) ∧
                (za = true ↔ evalNode pairBuilder.nodes #[.fin 1, .fin 0] 1 +
                  ((([0, 0] : List Int)[1]?.getD 0 : Int) : Rat) ≤ evalNode pairBuilder.nodes #[.fin 1, .fin 0] 0)) ∧
              (z = true ↔ zb = true ∨ za = true))) := by
  have hord : OperandsPrecede pairBuilder.nodes := pairNodes_operandsPrecede
  have hε : pairBuilder.config.epsilon = .fin 1e-6 := rfl
  have hεpos : (0 : Rat) < 1e-6 := by norm_num
  have h₀ : FiniteBelow pairBuilder.nodes 0 := finiteBelow_of_column (n := pairNodes[0]) rfl rfl
  have h₁ : FiniteBelow pairBuilder.nodes 1 := finiteBelow_of_column (n := pairNodes[1]) rfl rfl
  have hV : ∀ v, Row.ColumnOf pairBuilder.nodes 0 v ∨ Row.ColumnOf pairBuilder.nodes 1 v →
      InBounds pairBuilder.model.columns #[.fin 1, .fin 0] v := fun _ hv => pairBuilder_inBounds hv
  exact ⟨hord, hε, hεpos, h₀, h₁, rfl, hV, encodeNoOverlap_exact hord hε hεpos h₀ h₁ rfl hV⟩

/-- `pairBuilder` with the separation off and `epsilon = 2`. -/
def wideGapBuilder : Builder ERat := { pairBuilder with config := ⟨.fin 2, false, 100000⟩ }

/-- Nested, the pair `NoOverlap(x, y, [0, 0])` at `x = 1`, `y = 0` holds (`y ≤ x`), and both
differences are integral, yet with the separation off and `epsilon = 2` the difference `1` of
the ordering `x ≤ y` lies in its gap `(0, 2)`: the rows hold at no value of the indicators. -/
theorem wideGapBuilder_admits_none :
    ∃ e b', (encodeNoOverlap 2 0 1 [0, 0] false).run wideGapBuilder = .ok e b' ∧
      ∀ zb za z : Bool, ¬AddedRowsAdmit wideGapBuilder b'
        ((((#[.fin 1, .fin 0] : Array ERat).push (ofBool zb)).push (ofBool za)).push (ofBool z)) := by
  obtain ⟨e, b', hrun⟩ : ∃ e b', (encodeNoOverlap 2 0 1 [0, 0] false).run wideGapBuilder =
      .ok e b' := by
    -- the two fragments fold columns only; the rest of the run computes
    rw [encodeNoOverlap, run_bind, difference_columns_run (n := pairNodes[0]) (m := pairNodes[1])
      rfl rfl rfl rfl]
    dsimp only
    rw [run_bind, difference_columns_run (n := pairNodes[1]) (m := pairNodes[0]) rfl rfl rfl rfl]
    exact exists_run_ok (by decide +kernel)
  refine ⟨e, b', hrun, fun zb za z hW => ?_⟩
  obtain ⟨-, before, _, -, -, hsem⟩ := encodeNoOverlap_nested_spec (b := wideGapBuilder) (ε := 2)
    pairNodes_operandsPrecede rfl (by norm_num)
    (finiteBelow_of_column (n := pairNodes[0]) rfl rfl)
    (finiteBelow_of_column (n := pairNodes[1]) rfl rfl) rfl (fun _ hv => pairBuilder_inBounds hv)
    hrun
  have hx : evalNode wideGapBuilder.nodes #[.fin 1, .fin 0] 0 = 1 :=
    evalNode_column (n := pairNodes[0]) rfl rfl
  have hy : evalNode wideGapBuilder.nodes #[.fin 1, .fin 0] 1 = 0 :=
    evalNode_column (n := pairNodes[1]) rfl rfl
  have hsep : separationOf wideGapBuilder before 2 = 2 := rfl
  have hgap := ((hsem zb za z).1 hW).1.1
  rw [hx, hy, hsep] at hgap
  exact hgap (by norm_num)

end Lowering

end MipLowering
