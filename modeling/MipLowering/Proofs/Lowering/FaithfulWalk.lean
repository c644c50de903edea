import MipLowering.Proofs.Lowering.FaithfulFlows

/-!
# The walk of an add, lowered faithfully

A walk from a node visits its operands nested, then lowers the node; a node met encoded is left
as it is, except that at top level the indicator of a relation, logic or pair node is forced on.
This module puts the faithful steps of the single kinds together into the walk.

Lowering one node keeps a builder lowerable (`Builder.Lowerable.encodeAs_step`) and is faithful
to every `val` the builder it leads to is consistent with (`Builder.Faithful.encodeKind`): the
lemmas of the single kinds, dispatched on the kind. Meeting an encoded node is faithful too
(`Builder.Faithful.revisit`): a posted node holds at every point, and forcing an indicator on
keeps exactly the points where it reads `1` (`Builder.point_withColumnOn_iff`), since an
indicator is a binary column.

A whole walk, by strong induction on its node, keeps a builder lowerable, leaves it with fewer
points (`Builder.Narrows`), and is faithful asserting the condition of its node at top level
(`Lowering.visit_faithful`), as soon as the flow constraints of the builder it leads to have their
domains within the range of a 64-bit integer (`Builder.FlowsFit`).

## Main definitions

* `MipLowering.Builder.Narrows` — the points of one model are points of another.
* `MipLowering.Builder.FlowsFit` — the domains of every flow constraint fit.

## Main results

* `MipLowering.Builder.Faithful.encodeKind`, `MipLowering.Builder.Faithful.revisit`.
* `MipLowering.Lowering.visit_faithful`.
-/

namespace MipLowering

open ERat Lowering

/-! ### The shape of an encoding -/

/-- The kinds that are no condition hold everywhere. -/
theorem Kind.holds_of_isCondition_eq_false {k : Kind ERat} (h : k.isCondition = false)
    (val : Nat → ℚ) : k.Holds val := by
  cases k <;> simp_all [Kind.isCondition, Kind.Holds]

/-- A condition encoded by a column takes the value of the column. -/
theorem evalNode_of_column {nodes : Array (Node ERat)} {V : Array ERat} {id v : Nat}
    {n : Node ERat} (hn : nodes[id]? = some n) (hc : n.kind.isCondition = true)
    (he : n.encoding = some (.column v)) : evalNode nodes V id = (V.getD v Scalar.zero).toRat := by
  refine evalNode_column hn ?_
  obtain ⟨k, lo, hi, c, enc⟩ := n
  cases he
  cases k <;> first | rfl | cases hc

/-- A condition posted takes the value `1`. -/
theorem evalNode_of_posted {nodes : Array (Node ERat)} {V : Array ERat} {id : Nat}
    {n : Node ERat} (hn : nodes[id]? = some n) (hc : n.kind.isCondition = true)
    (he : n.encoding = some .posted) : evalNode nodes V id = 1 := by
  refine evalNode_posted hn ?_
  obtain ⟨k, lo, hi, c, enc⟩ := n
  cases he
  cases k <;> first | rfl | cases hc

namespace Lowering

variable {b b₁ : Builder ERat} {id : Nat} {k : Kind ERat} {top : Bool} {e : Encoding}

/-- Lowering a node that reads no operand as a truth value keeps the arena: only negations,
conjunctions and disjunctions push readings. -/
theorem encodeKind_nodes (h : (encodeKind id k top).run b = .ok e b₁) (hnot : ∀ a, k ≠ .not a)
    (hand : ∀ a c, k ≠ .and a c) (hor : ∀ a c, k ≠ .or a c) : b₁.nodes = b.nodes := by
  unfold encodeKind at h
  split at h
  case h_1 => exact ((addColumn_appends (.var id) _ _ _).map _ _ _ h).1
  case h_2 => exact ((encodeIntVar_appends id _ _ _).map _ _ _ h).1
  case h_3 => exact (Appends.pure _ _ _ _ h).1
  case h_4 => exact (encodeSum_appends id top _ _ _ h).1
  case h_5 =>
    exact (((difference_appends _ _ _).nil_bind fun _ => encodeRel_appends _ _ _ _) _ _ _ h).1
  case h_6 => exact (encodePrecedence_appends _ _ _ _ _ _ _ _ h).1
  case h_7 => exact (encodeNoOverlap_appends _ _ _ _ _ _ _ _ h).1
  case h_8 a => exact absurd rfl (hnot a)
  case h_9 a c => exact absurd rfl (hand a c)
  case h_10 a c => exact absurd rfl (hor a c)
  case h_11 =>
    dsimp only at h
    split at h
    · obtain ⟨_, _, hthrow, -⟩ := run_bind_ok h
      cases hthrow
    obtain ⟨u, b₂, hf, h⟩ := run_bind_ok h
    cases h
    obtain ⟨ds, -, hnodes, -⟩ := encodeFlow_run_ok hf
    exact hnodes
  case h_12 =>
    obtain ⟨-, -, hnodes, -⟩ := encodeObjective_run_ok h
    exact hnodes

end Lowering

theorem Kind.isCondition_of_isBinop {k : Kind ERat} (h : k.isBinop = true) : k.isCondition = true := by
  cases k <;> simp_all [Kind.isBinop, Kind.isCondition]

/-! ### Indicators forced on -/

namespace Column.IsIndicator

variable {c : Column ERat}

theorem max_lower_one (h : c.IsIndicator) : Scalar.max c.lower Scalar.one = Scalar.one := by
  rcases h.2.1 with hlo | hlo <;> rw [hlo, one_eq_fin]
  · rw [zero_eq_fin, max_fin]
    norm_num
  · rw [max_fin, max_self]

/-- An indicator takes the value `1`. -/
theorem fits_one (h : c.IsIndicator) : c.Fits 1 := by
  obtain ⟨hk, hlo, hhi⟩ := h
  refine ⟨?_, by rw [hhi, one_eq_fin, fin_le_fin], fun _ => ⟨1, by simp⟩⟩
  rcases hlo with hlo | hlo <;> rw [hlo]
  · rw [zero_eq_fin, fin_le_fin]
    norm_num
  · rw [one_eq_fin, fin_le_fin]

/-- An indicator forced on is an indicator, taking the value `1` only. -/
theorem forced (h : c.IsIndicator) :
    ({ c with lower := Scalar.max c.lower Scalar.one } : Column ERat).IsIndicator :=
  ⟨h.1, .inr h.max_lower_one, h.2.2⟩

theorem fits_forced_iff (h : c.IsIndicator) {x : ℚ} :
    ({ c with lower := Scalar.max c.lower Scalar.one } : Column ERat).Fits x ↔ x = 1 := by
  constructor
  · rintro ⟨hlo, hhi, -⟩
    rw [h.max_lower_one, one_eq_fin, fin_le_fin] at hlo
    rw [h.2.2, one_eq_fin, fin_le_fin] at hhi
    exact le_antisymm hhi hlo
  · rintro rfl
    exact h.forced.fits_one

end Column.IsIndicator

namespace Builder

variable {val : Nat → ℚ} {b b₁ b' b'' : Builder ERat} {id : Nat} {n : Node ERat} {e : Encoding}
  {top : Bool} {A B : Prop}

theorem getElem?_withColumnOn_columns (v w : Nat) :
    (b.withColumnOn v).model.columns[w]? =
      if v = w then b.model.columns[w]?.map fun c => { c with lower := Scalar.max c.lower Scalar.one }
      else b.model.columns[w]? := by
  simp [withColumnOn, FlatModel.modifyColumn, Array.getElem?_modify]

/-- Forcing an indicator on keeps exactly the points where it reads `1`. -/
theorem point_withColumnOn_iff {v : Nat} {c : Column ERat} (hc : b.model.columns[v]? = some c)
    (hi : c.IsIndicator) {W : Array ERat} :
    (b.withColumnOn v).model.Point W ↔ b.model.Point W ∧ W.getD v Scalar.zero = Scalar.one := by
  have hcv : (b.withColumnOn v).model.columns[v]? =
      some { c with lower := Scalar.max c.lower Scalar.one } := by
    rw [getElem?_withColumnOn_columns, if_pos rfl, hc]
    rfl
  have hother : ∀ w, v ≠ w → (b.withColumnOn v).model.columns[w]? = b.model.columns[w]? :=
    fun w hw => by rw [getElem?_withColumnOn_columns, if_neg hw]
  constructor
  · intro hW
    obtain ⟨x, hx, hfit⟩ := hW.columns v _ hcv
    have hx1 : x = 1 := hi.fits_forced_iff.1 hfit
    refine ⟨⟨fun w c' hc' => ?_, hW.rows⟩, by rw [hx, hx1, one_eq_fin]⟩
    by_cases hw : v = w
    · subst hw
      rw [hc, Option.some.injEq] at hc'
      subst hc'
      exact ⟨x, hx, hx1 ▸ hi.fits_one⟩
    · exact hW.columns w c' ((hother w hw).trans hc')
  · rintro ⟨hW, hW1⟩
    refine ⟨fun w c' hc' => ?_, hW.rows⟩
    by_cases hw : v = w
    · subst hw
      rw [hcv, Option.some.injEq] at hc'
      subst hc'
      exact ⟨1, by rw [hW1, one_eq_fin], hi.fits_forced_iff.2 rfl⟩
    · exact hW.columns w c' ((hother w hw).symm.trans hc')

theorem IndicatorColumns.withColumnOn (h : b.IndicatorColumns) (v : Nat) :
    (b.withColumnOn v).IndicatorColumns := by
  intro j m w hm hb he
  obtain ⟨c, hc, hi⟩ := h j m w hm hb he
  by_cases hw : v = w
  · refine ⟨_, ?_, hi.forced⟩
    rw [getElem?_withColumnOn_columns, if_pos hw, hc]
    rfl
  · exact ⟨c, by rw [getElem?_withColumnOn_columns, if_neg hw, hc], hi⟩

/-- Forcing a column on keeps a builder lowerable. -/
theorem Lowerable.withColumnOn (h : b.Lowerable) (v : Nat) : (b.withColumnOn v).Lowerable :=
  ⟨h.sound.modifyColumn v _, h.config, h.integer, h.derived.of_keepsNodes (.of_nodes rfl), h.shapes,
    h.indicators.withColumnOn v⟩

/-- Meeting an encoded node keeps a builder lowerable. -/
theorem Lowerable.revisit (h : b.Lowerable) (top : Bool) (k : Kind ERat) (e : Encoding) :
    (b.revisit top k e).Lowerable := by
  cases e with
  | column v =>
    rw [Builder.revisit]
    split
    · exact h.withColumnOn v
    · exact h
  | affine => exact h
  | posted => exact h

/-! ### Narrowing steps -/

/-- Every point of the model of `b'` is one of `b`, the variables of `b` take at a point the
values they take in `b'`, and a `val` consistent with the nodes of `b'` is so with those of `b`. -/
structure Narrows (b b' : Builder ERat) : Prop where
  point : ∀ W, b'.model.Point W → b.model.Point W
  agrees : ∀ val W, b'.Agrees val W → b.Agrees val W
  consistent : ∀ val, b'.Consistent val → b.Consistent val

theorem Narrows.refl (b : Builder ERat) : b.Narrows b :=
  ⟨fun _ h => h, fun _ _ h => h, fun _ h => h⟩

theorem Narrows.trans (h : b.Narrows b') (h' : b'.Narrows b'') : b.Narrows b'' :=
  ⟨fun W hW => h.point W (h'.point W hW), fun val W hA => h.agrees val W (h'.agrees val W hA),
    fun val hv => h.consistent val (h'.consistent val hv)⟩

theorem Grows.narrows (hg : b.Grows b') (hs : b.Sound) : b.Narrows b' :=
  ⟨fun _ => hg.point, fun _ _ => hg.agrees hs, fun _ => hg.consistent⟩

/-- Meeting an encoded node narrows a lowerable builder: at most it forces an indicator on. -/
theorem Lowerable.narrows_revisit (hctx : b.Lowerable) (hn : b.nodes[id]? = some n)
    (he : n.encoding = some e) (top : Bool) : b.Narrows (b.revisit top n.kind e) := by
  cases e with
  | column v =>
    rw [Builder.revisit]
    split
    · next hforce =>
      obtain ⟨c, hc, hi⟩ := hctx.indicators id n v hn (Bool.and_eq_true_iff.1 hforce).2 he
      exact ⟨fun W hW => ((point_withColumnOn_iff hc hi).1 hW).1, fun _ _ h => h, fun _ h => h⟩
    · exact .refl b
  | affine => exact .refl b
  | posted => exact .refl b

/-- Faithful steps compose across a narrowing, their assertions conjoined. -/
theorem Faithful.trans_narrows (hn : b'.Narrows b'') (h : Faithful val b b' A)
    (h' : Faithful val b' b'' B) : Faithful val b b'' (A ∧ B) := by
  constructor
  · intro W hW hR hAg
    obtain ⟨hR', hA⟩ := h.sound W (hn.point W hW) hR (hn.agrees val W hAg)
    obtain ⟨hR'', hB⟩ := h'.sound W hW hR' hAg
    exact ⟨hR'', hA, hB⟩
  · rintro W hsize hW hR ⟨hA, hB⟩
    obtain ⟨W', hsize', hW', hR'⟩ := h.complete W hsize hW hR hA
    exact h'.complete W' hsize' hW' hR' hB

/-! ### Meeting an encoded node -/

/-- A posted node holds at every point that reads `val`. -/
theorem Faithful.posted (hn : b.nodes[id]? = some n) (he : n.encoding = some .posted)
    (hval : b.Consistent val) : Faithful val b b (n.kind.Holds val) := by
  refine ⟨fun W _ hR _ => ⟨hR, ?_⟩, fun W hsize hW hR _ => ⟨W, hsize, hW, hR⟩⟩
  cases hc : n.kind.isCondition
  · exact Kind.holds_of_isCondition_eq_false hc val
  · have h1 : val id = 1 :=
      (hR id ⟨n, hn, by rw [he]; rfl⟩).symm.trans (evalNode_of_posted hn hc he)
    exact ((hval.denotes hn (by rw [he]; rfl)).2 hc).1 h1

/-- Forcing on the indicator of a relation, logic or pair node asserts its condition: a point of
the new model is one of the old where the indicator reads `1`, and the node takes `1` exactly
when its condition holds. -/
theorem Faithful.withColumnOn (hctx : b.Lowerable) (hn : b.nodes[id]? = some n)
    (hb : n.kind.isBinop = true) {v : Nat} (he : n.encoding = some (.column v))
    (hval : b.Consistent val) : Faithful val b (b.withColumnOn v) (n.kind.Holds val) := by
  obtain ⟨c, hc, hi⟩ := hctx.indicators id n v hn hb he
  have hcond := Kind.isCondition_of_isBinop hb
  have hone := (hval.denotes hn (by rw [he]; rfl)).2 hcond
  -- the node reads its indicator
  have hread : ∀ W, b.Reads val W → (W.getD v Scalar.zero).toRat = val id := fun W hR =>
    (evalNode_of_column hn hcond he).symm.trans (hR id ⟨n, hn, by rw [he]; rfl⟩)
  constructor
  · intro W hW hR _
    have hW1 := ((point_withColumnOn_iff hc hi).1 hW).2
    refine ⟨hR, hone.1 ?_⟩
    rw [← hread W hR, hW1, one_eq_fin, toRat_fin]
  · intro W hsize hW hR hA
    refine ⟨W, by simpa [Builder.withColumnOn, FlatModel.modifyColumn] using hsize,
      (point_withColumnOn_iff hc hi).2 ⟨hW, ?_⟩, hR⟩
    obtain ⟨x, hx, -⟩ := hW.columns v c hc
    have hx1 : x = 1 := by rw [← toRat_fin x, ← hx, hread W hR, hone.2 hA]
    rw [hx, hx1, one_eq_fin]

/-- Meeting an encoded node is faithful to every `val` the builder is consistent with, asserting
the node's condition at top level: a posted node holds at every point, an indicator forced on
reads `1`, and a node encoded otherwise is no condition. -/
theorem Faithful.revisit (hctx : b.Lowerable) (hn : b.nodes[id]? = some n)
    (he : n.encoding = some e) (hval : b.Consistent val) :
    Faithful val b (b.revisit top n.kind e) (top = true → n.kind.Holds val) := by
  cases top with
  | false =>
    rw [revisit_false]
    exact (Faithful.refl b).of_iff (iff_of_true trivial fun h => by cases h)
  | true =>
  -- a node neither posted nor encoded by an indicator is no condition
  have hfree : e ≠ .posted → (∀ v, e = .column v → n.kind.isBinop = false) →
      n.kind.Holds val := by
    intro hp hcol
    refine Kind.holds_of_isCondition_eq_false ?_ val
    cases hc : n.kind.isCondition
    · rfl
    · rcases hctx.shapes id n hn hc e he with h | ⟨hb, v, hv⟩
      · exact absurd h hp
      · rw [hcol v hv] at hb
        cases hb
  cases e with
  | column v =>
    cases hb : n.kind.isBinop
    · rw [Builder.revisit, if_neg (by simp [hb])]
      exact (Faithful.refl b).of_iff
        (iff_of_true trivial fun _ => hfree (by simp) fun _ _ => hb)
    · rw [Builder.revisit, if_pos (by simp [hb])]
      exact (Faithful.withColumnOn hctx hn hb he hval).of_iff ⟨fun h _ => h, fun h => h rfl⟩
  | affine =>
    exact (Faithful.refl b).of_iff
      (iff_of_true trivial fun _ => hfree (by simp) fun _ h => by cases h)
  | posted => exact (Faithful.posted hn he hval).of_iff ⟨fun h _ => h, fun h => h rfl⟩

end Builder

/-! ### Lowering one node -/

namespace Builder

variable {val : Nat → ℚ} {b b₁ : Builder ERat} {id : Nat} {n : Node ERat} {e : Encoding}
  {top : Bool}

/-- A relation, logic or pair node lowered by adding binaries to a lowerable builder `b₂` that
grows to `b₁`: posted at top level, and nested encoded by one of those binaries. -/
theorem Lowerable.binop_shape {b₂ : Builder ERat} {k : Kind ERat} {j : Nat} (hctx₂ : b₂.Lowerable)
    (hg₂ : b₂.Grows b₁) (hadd : b₂.AddsBinaries b₁ j) (hb : k.isBinop = true)
    (hpost : top = true → e = .posted)
    (hnest : top = false → ∃ v, e = .column v ∧ b₂.model.columns.size ≤ v)
    (hlt : ∀ v, e = .column v → v < b₁.model.columns.size) :
    ∃ b₂ : Builder ERat, b₂.Lowerable ∧ b₂.Grows b₁ ∧ b₁.nodes = b₂.nodes ∧
      (k.isCondition = true → e = .posted ∨
        k.isBinop = true ∧ ∃ v, e = .column v ∧ ∃ c, b₁.model.columns[v]? = some c ∧ c.IsIndicator) := by
  refine ⟨b₂, hctx₂, hg₂, hadd.nodes, fun _ => ?_⟩
  cases top with
  | true => exact .inl (hpost rfl)
  | false =>
    obtain ⟨v, rfl, hv⟩ := hnest rfl
    exact .inr ⟨hb, v, rfl, hadd.indicator hv (hlt v rfl)⟩

/-- Lowering the kind of a node of a lowerable builder, with its operands encoded, ends on the
arena of a lowerable builder it grew from: the builder itself or, for a connective, the one after
its readings. A condition is posted, or lowered to an indicator when nested. -/
theorem Lowerable.encodeKind (hctx : b.Lowerable) (hops : ∀ c ∈ n.kind.children, b.Encoded c)
    (h : (encodeKind id n.kind top).run b = .ok e b₁)
    (hlt : ∀ v, e = .column v → v < b₁.model.columns.size) :
    ∃ b₂ : Builder ERat, b₂.Lowerable ∧ b₂.Grows b₁ ∧ b₁.nodes = b₂.nodes ∧
      (n.kind.isCondition = true → e = .posted ∨
        n.kind.isBinop = true ∧ ∃ v, e = .column v ∧ ∃ c, b₁.model.columns[v]? = some c ∧ c.IsIndicator) := by
  obtain ⟨hg, hpost⟩ := grows_of_run (encodeKind_undoable id n.kind top) h
  have hsame := encodeKind_nodes h
  obtain ⟨k, hk⟩ : ∃ k, n.kind = k := ⟨_, rfl⟩
  rw [hk] at h hops hsame hpost ⊢
  cases k with
  | floatVar | intVar | view | sum | objective =>
    exact ⟨b, hctx, hg, hsame (by simp) (by simp) (by simp), fun hc => by cases hc⟩
  | rel | precedence =>
    obtain ⟨j, -, hadd⟩ := ((difference_addsBinaries _ _ _).bind fun _ =>
      encodeRel_addsBinaries _ _ _ _) _ _ _ h
    exact hctx.binop_shape hg hadd rfl (fun ht => hpost ht rfl)
      (fun hf => by subst hf; exact difference_encodeRel_nested_fresh h) hlt
  | noOverlap =>
    obtain ⟨j, -, hadd⟩ := encodeNoOverlap_addsBinaries _ _ _ _ _ _ _ _ h
    exact hctx.binop_shape hg hadd rfl (fun ht => hpost ht rfl)
      (fun hf => by subst hf; exact encodeNoOverlap_nested_fresh h) hlt
  -- a connective reads its operands first, then adds its binaries after the readings
  | not a =>
    obtain ⟨x, b₂, hx, -⟩ := run_bind_ok h
    obtain ⟨hctx₂, -, -⟩ := Faithful.reading hctx (hops a (by simp [Kind.children])) hx
    obtain ⟨hg₂, j, -, hadd⟩ := encodeNot_tail h hx
    have hrows := encodeNot_logicRows hctx.sound.children (hctx.finiteScales.readsFinitely _) h hx
    exact hctx₂.binop_shape hg₂ hadd rfl (fun ht => hpost ht rfl)
      (fun hf => ⟨_, (hrows.2 hf).1, le_rfl⟩) hlt
  | and a c =>
    obtain ⟨x, b₂, hx, hk₂⟩ := run_bind_ok h
    obtain ⟨y, b₃, hy, -⟩ := run_bind_ok hk₂
    obtain ⟨hctx₃, -, -⟩ := Faithful.readingPair hctx (hops a (by simp [Kind.children]))
      (hops c (by simp [Kind.children])) hx hy
    obtain ⟨hg₃, j, -, hadd⟩ := encodeAnd_tail h hx hy
    have hrows := encodeAnd_logicRows hctx.sound.children
      (hctx.finiteScales.readsFinitely _) (hctx.finiteScales.readsFinitely _) h hx hy
    exact hctx₃.binop_shape hg₃ hadd rfl (fun ht => hpost ht rfl)
      (fun hf => ⟨_, (hrows.2 hf).1, le_rfl⟩) hlt
  | or a c =>
    obtain ⟨x, b₂, hx, hk₂⟩ := run_bind_ok h
    obtain ⟨y, b₃, hy, -⟩ := run_bind_ok hk₂
    obtain ⟨hctx₃, -, -⟩ := Faithful.readingPair hctx (hops a (by simp [Kind.children]))
      (hops c (by simp [Kind.children])) hx hy
    obtain ⟨hg₃, j, -, hadd⟩ := encodeOr_tail h hx hy
    have hrows := encodeOr_logicRows hctx.sound.children
      (hctx.finiteScales.readsFinitely _) (hctx.finiteScales.readsFinitely _) h hx hy
    exact hctx₃.binop_shape hg₃ hadd rfl (fun ht => hpost ht rfl)
      (fun hf => ⟨_, (hrows.2 hf).1, le_rfl⟩) hlt
  | flow kind vars values lb ub =>
    refine ⟨b, hctx, hg, hsame (by simp) (by simp) (by simp), fun _ => .inl ?_⟩
    simp only [Lowering.encodeKind] at h
    split at h
    · obtain ⟨_, _, hthrow, -⟩ := run_bind_ok h
      cases hthrow
    · obtain ⟨u, b₂, -, h⟩ := run_bind_ok h
      cases h
      rfl

end Builder

namespace Builder

variable {val : Nat → ℚ} {b b₁ : Builder ERat} {id : Nat} {n : Node ERat} {e : Encoding}
  {top : Bool}

/-- Lowering an unencoded node of a lowerable builder, with its operands encoded, and recording
its encoding keeps the builder lowerable. -/
theorem Lowerable.encodeAs_step (hctx : b.Lowerable) (hn : b.nodes[id]? = some n)
    (hnone : n.encoding = none) (hops : ∀ c ∈ n.kind.children, b.Encoded c)
    (h : (Lowering.encodeKind id n.kind top).run b = .ok e b₁) (hs₂ : (b₁.encodeAs id e).Sound) :
    (b₁.encodeAs id e).Lowerable := by
  have hk := encodeKind_keepsNodes id n.kind top b e b₁ h
  obtain ⟨e', hn₁⟩ := hk.old id n hn
  have hlt : ∀ v, e = .column v → v < b₁.model.columns.size := by
    rintro v rfl
    exact hs₂.columns id _ v (getElem?_encodeAs_self hn₁) rfl
  obtain ⟨b₂, hctx₂, hg₂, hnodes, hshape⟩ := hctx.encodeKind hops h hlt
  have hg := (grows_of_run (encodeKind_undoable id n.kind top) h).1
  -- the node itself is the one of `b`, up to its encoding
  have hself : ∀ m, b₁.nodes[id]? = some m → m.kind = n.kind := fun m hm => by
    rw [hn₁, Option.some.injEq] at hm
    rw [← hm]
  refine hctx.of_step (hk.trans (KeepsNodes.setEncoding id e))
    (hg.encodeAs (unencoded_of_getElem? hn hnone) e) hs₂ ?_ ?_
  · refine shapes_encodeAs (fun j m hm => hctx₂.shapes j m (hnodes ▸ hm)) fun m hm hc => ?_
    rw [hself m hm] at hc ⊢
    rcases hshape hc with hp | ⟨hb, v, hv, -⟩
    · exact .inl hp
    · exact .inr ⟨hb, v, hv⟩
  · refine (hctx₂.indicators.of_nodes hnodes fun v c hc => hg₂.getElem?_columns hc).encodeAs
      fun m v hm hb hv => ?_
    rw [hself m hm] at hb
    rcases hshape (Kind.isCondition_of_isBinop hb) with hp | ⟨-, w, hw, hc⟩
    · rw [hv] at hp
      cases hp
    · rw [hv] at hw
      cases hw
      exact hc

/-- Lowering an unencoded node of a lowerable builder, with its operands encoded and the domains
of a flow's variables fitting, is faithful to every `val` the result is consistent with, asserting
the node's condition at top level. -/
theorem Faithful.encodeKind (hctx : b.Lowerable) (hn : b.nodes[id]? = some n)
    (hnone : n.encoding = none) (hops : ∀ c ∈ n.kind.children, b.Encoded c)
    (hfit : ∀ kind vars values lb ub, n.kind = .flow kind vars values lb ub → b.FlowDomainsFit vars)
    (h : (encodeKind id n.kind top).run b = .ok e b₁) (hs₂ : (b₁.encodeAs id e).Sound)
    (hval : (b₁.encodeAs id e).Consistent val) :
    Faithful val b (b₁.encodeAs id e) (top = true → n.kind.Holds val) := by
  obtain ⟨k, hk⟩ : ∃ k, n.kind = k := ⟨_, rfl⟩
  cases k with
  | floatVar =>
    have hint := (hctx.integer id n hn).1
    rw [hk] at hint
    exact hint.elim
  | intVar => exact Faithful.intVar hctx hn hnone hk h hs₂ hval
  | view => exact Faithful.view hctx hn hnone hk hops h hs₂ hval
  | sum => exact Faithful.sum hctx hn hnone hk hops h hs₂ hval
  | rel => exact Faithful.rel hctx hn hnone hk hops h hs₂ hval
  | precedence => exact Faithful.precedence hctx hn hnone hk hops h hs₂ hval
  | noOverlap => exact Faithful.noOverlap hctx hn hnone hk hops h hs₂ hval
  | not => exact Faithful.not hctx hn hnone hk hops h hs₂ hval
  | and => exact Faithful.and hctx hn hnone hk hops h hs₂ hval
  | or => exact Faithful.or hctx hn hnone hk hops h hs₂ hval
  | flow => exact Faithful.flow hctx hn hnone hk hops (hfit _ _ _ _ _ hk) h hs₂ hval
  | objective => exact Faithful.objective hctx hn hnone hk hops h hs₂ hval

end Builder

/-! ### Walks -/

namespace Builder

variable {val : Nat → ℚ} {b b' b'' : Builder ERat} {id : Nat} {n : Node ERat}
  {A B : (Nat → ℚ) → Prop}

/-- The flow constraints of `b` have the domains of their variables within the range of a 64-bit
integer. -/
def FlowsFit (b : Builder ERat) : Prop :=
  ∀ (j : Nat) (n : Node ERat) kind vars values lb ub, b.nodes[j]? = some n →
    n.kind = .flow kind vars values lb ub → b.FlowDomainsFit vars

theorem DomainPath.of_keepsOld (hk : b.KeepsOld b') {i j : Nat} (h : DomainPath b.nodes i j) :
    DomainPath b'.nodes i j := by
  induction h with
  | refl => exact .refl _
  | view hn hv _ ih =>
    obtain ⟨e, hn'⟩ := hk _ _ hn
    exact .view hn' hv ih

/-- Domains that fit at the end of a step fit at its start: the nodes below a flow are kept. -/
theorem FlowsFit.of_keepsOld (h : b'.FlowsFit) (hk : b.KeepsOld b') : b.FlowsFit := by
  intro j n kind vars values lb ub hn hflow x hx i m hpath hm
  obtain ⟨e, hn'⟩ := hk j n hn
  obtain ⟨e', hm'⟩ := hk i m hm
  have hfit := h j _ kind vars values lb ub hn' hflow x hx i _ (DomainPath.of_keepsOld hk hpath) hm'
  exact hfit

/-- `b` lowers faithfully to `b'`, asserting `A`: `b'` is lowerable, has fewer points than `b`,
and is reached by steps faithful to every `val` it is consistent with. -/
structure LowersFaithfully (b b' : Builder ERat) (A : (Nat → ℚ) → Prop) : Prop where
  lowerable : b'.Lowerable
  narrows : b.Narrows b'
  faithful : ∀ val, b'.Consistent val → Faithful val b b' (A val)

namespace LowersFaithfully

theorem refl (h : b.Lowerable) : b.LowersFaithfully b fun _ => True :=
  ⟨h, .refl b, fun _ _ => Faithful.refl b⟩

theorem trans (h : b.LowersFaithfully b' A) (h' : b'.LowersFaithfully b'' B) :
    b.LowersFaithfully b'' fun val => A val ∧ B val :=
  ⟨h'.lowerable, h.narrows.trans h'.narrows, fun val hval =>
    Faithful.trans_narrows h'.narrows (h.faithful val (h'.narrows.consistent val hval))
      (h'.faithful val hval)⟩

theorem of_iff (h : b.LowersFaithfully b' A) (hAB : ∀ val, A val ↔ B val) :
    b.LowersFaithfully b' B :=
  ⟨h.lowerable, h.narrows, fun val hval => (h.faithful val hval).of_iff (hAB val)⟩

end LowersFaithfully

theorem forall_getElem?_holds_iff (hn : b.nodes[id]? = some n) :
    (∀ m : Node ERat, b.nodes[id]? = some m → m.kind.Holds val) ↔ n.kind.Holds val :=
  ⟨fun h => h n hn, fun h m hm => by
    rw [hn, Option.some.injEq] at hm
    exact hm ▸ h⟩

end Builder

namespace Lowering

open Builder

/-- Walking operands in turn, each nested, lowers faithfully asserting nothing, and leaves them
encoded. By induction on the list; a domain that fits at the end fits after each walk, since the
later walks keep its nodes. -/
theorem forM_nested {f : Nat → Lowering ERat PUnit} : ∀ (cs : List Nat) {b b' : Builder ERat},
    (∀ c ∈ cs, ∀ {b₁ b₂ : Builder ERat}, (f c).run b₁ = .ok () b₂ → b₁.Lowerable →
      b₁.NamesOwned → b₂.FlowsFit →
        b₁.LowersFaithfully b₂ (fun _ => True) ∧ b₁.Grows b₂ ∧ b₂.NamesOwned ∧ b₂.Encoded c) →
    (∀ c ∈ cs, KeepsNodes (f c)) →
    (cs.forM f).run b = .ok () b' → b.Lowerable → b.NamesOwned → b'.FlowsFit →
    b.LowersFaithfully b' (fun _ => True) ∧ b.Grows b' ∧ b'.NamesOwned ∧ ∀ c ∈ cs, b'.Encoded c
  | [], b, b', _, _, h, hctx, hN, _ => by
    cases h
    exact ⟨.refl hctx, .refl b, hN, fun _ h => by cases h⟩
  | c :: cs, b, b', hf, hk, h, hctx, hN, hfit => by
    have hstep : (c :: cs).forM f = (f c >>= fun _ => cs.forM f) := rfl
    rw [hstep] at h
    obtain ⟨_, b₂, hc, hrest⟩ := run_bind_ok h
    have hkeep : b₂.KeepsOld b' :=
      (KeepsNodes.forM (fun c' hc' => hk c' (List.mem_cons_of_mem _ hc')) b₂ () b' hrest).old
    obtain ⟨h₁, hg₁, hN₂, henc⟩ := hf c List.mem_cons_self hc hctx hN (hfit.of_keepsOld hkeep)
    obtain ⟨h₂, hg₂, hN', hencs⟩ := forM_nested cs
      (fun c' hc' => hf c' (List.mem_cons_of_mem _ hc'))
      (fun c' hc' => hk c' (List.mem_cons_of_mem _ hc')) hrest h₁.lowerable hN₂ hfit
    refine ⟨(h₁.trans h₂).of_iff fun _ => and_self_iff, hg₁.trans hg₂, hN', fun c' hc' => ?_⟩
    rcases List.mem_cons.1 hc' with rfl | hc'
    · exact hg₂.encoded_mono henc
    · exact hencs c' hc'

/-- A walk from a node of a lowerable builder whose names are owned lowers it faithfully,
asserting at top level the condition of the node, as soon as the flow constraints of the builder
it leads to fit. By strong induction on the node: its operands, walked first, precede it. -/
theorem visit_faithful (id : Nat) : ∀ (top : Bool) {b b' : Builder ERat},
    (visit id top).run b = .ok () b' → b.Lowerable → b.NamesOwned → b'.FlowsFit →
    b.LowersFaithfully b' fun val => top = true → ∀ n, b.nodes[id]? = some n → n.kind.Holds val := by
  induction id using Nat.strongRecOn with
  | ind id ih =>
  intro top b b' h hctx hN hfit
  have hs' : b'.Sound :=
    (visit_sustains (fun _ _ _ _ => trivial) id top b () b' hctx.sound trivial h).2.1
  rcases visit_cases b id top with ⟨n, hn, e, he, hrun⟩ | ⟨hid, -⟩
  · -- met encoded: at most an indicator is forced on
    rw [hrun] at h
    cases h
    have hnar := hctx.narrows_revisit hn he top
    refine ⟨hctx.revisit top n.kind e, hnar, fun val hval => ?_⟩
    exact (Faithful.revisit hctx hn he (hnar.consistent val hval)).of_iff
      (imp_congr_right fun _ => (forall_getElem?_holds_iff hn).symm)
  -- not encoded: the operands are walked nested, then the node is lowered
  rw [visit, run_bind, nodeAt_run] at h
  cases hn : b.nodes[id]? with
  | none =>
    rw [hn] at h
    cases h
  | some n =>
  have hnone : n.encoding = none := hid n hn
  rw [hn] at h
  dsimp only at h
  rw [hnone] at h
  dsimp only at h
  obtain ⟨_, b₁, hcs, henc⟩ := run_bind_ok h
  have hkids : KeepsFrom id b b₁ := forM_keepsFrom _ (fun c' _ b₂ b₃ hrun hN₂ hv₂ => by
    split at hrun
    · next hc' => exact (visit_keepsFrom c' false hrun hN₂ hv₂).mono hc'
    · cases hrun) hcs hN hctx.valuesNodup
  have hn₁ : b₁.nodes[id]? = some n := by
    rw [hkids.keeps id le_rfl (Array.getElem?_eq_some_iff.mp hn).1, hn]
  unfold encode at henc
  obtain ⟨m, b₂, hm, henc⟩ := run_bind_ok henc
  rw [nodeAt_run, hn₁] at hm
  cases hm
  obtain ⟨e, b₃, hk, hset⟩ := run_bind_ok henc
  rw [setEncoding_run_encodeAs] at hset
  cases hset
  have hkeep : b₁.KeepsOld (b₃.encodeAs id e) :=
    ((encodeKind_keepsNodes id n.kind top b₁ e b₃ hk).trans (KeepsNodes.setEncoding id e)).old
  -- each operand lies below the node and is walked nested
  have hchild : ∀ c ∈ n.kind.children, ∀ {b₄ b₅ : Builder ERat},
      (if _h : c < id then visit c false else throw (.notEncoded c) : Lowering ERat Unit).run b₄ =
        .ok () b₅ → b₄.Lowerable → b₄.NamesOwned → b₅.FlowsFit →
      b₄.LowersFaithfully b₅ (fun _ => True) ∧ b₄.Grows b₅ ∧ b₅.NamesOwned ∧ b₅.Encoded c := by
    intro c _ b₄ b₅ hrun hctx₄ hN₄ hfit₅
    split at hrun
    · next hlt =>
      exact ⟨(ih c hlt false hrun hctx₄ hN₄ hfit₅).of_iff fun _ => by simp,
        (grows_of_run (visit_undoable c) hrun).1,
        (visit_keepsFrom c false hrun hN₄ hctx₄.valuesNodup).names,
        (visit_sustains (fun _ _ _ _ => trivial) c false b₄ () b₅ hctx₄.sound trivial hrun).2.2.2⟩
    · cases hrun
  have hkeeps : ∀ c ∈ n.kind.children,
      KeepsNodes (if _h : c < id then visit c false else throw (.notEncoded c) : Lowering ERat Unit) := by
    intro c _
    split
    · exact visit_keepsNodes c false
    · intro _ _ _ h
      cases h
  obtain ⟨hkids', -, -, hops⟩ := forM_nested _ hchild hkeeps hcs hctx hN (hfit.of_keepsOld hkeep)
  -- the node itself: its kind is lowered and its encoding recorded
  have hctx₁ := hkids'.lowerable
  have hg := (grows_of_run (encodeKind_undoable id n.kind top) hk).1
  have hstep : b₁.LowersFaithfully (b₃.encodeAs id e) fun val => top = true → n.kind.Holds val :=
    ⟨hctx₁.encodeAs_step hn₁ hnone hops hk hs',
      (hg.encodeAs (unencoded_of_getElem? hn₁ hnone) e).narrows hctx₁.sound,
      fun val hval => Faithful.encodeKind hctx₁ hn₁ hnone hops
        (fun kind vars values lb ub hflow => hfit.of_keepsOld hkeep id n kind vars values lb ub hn₁ hflow)
        hk hs' hval⟩
  exact (hkids'.trans hstep).of_iff fun val => by simp

end Lowering

end MipLowering
