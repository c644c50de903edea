import MipLowering.Proofs.Lowering.Meaning

/-!
# Points of a flat model, and lowerings faithful to the values of nodes

A point of a flat model, read with exact arithmetic, gives every column a finite value within its
bounds, an integer on an integral column, and satisfies every row with no tolerance
(`FlatModel.Point`). A point *reads* values `val` of the nodes of a builder when every encoded
node, folded through its encoding, takes at the point the value `val` gives it (`Builder.Reads`);
it *agrees* with `val` when the encoded variables do (`Builder.Agrees`).

A step of a lowering from `b` to `b'` is *faithful* to `val`, asserting `A`, when what it adds
pins the new encodings to their values and says exactly `A` more: at a point of `b'` where the
variables and the nodes encoded before take their values, the nodes encoded since do too and `A`
holds; and when `A` holds, every point of `b` that reads `val` extends to one of `b'`
(`Builder.Faithful`). Faithful steps compose, their assertions conjoined
(`Builder.Faithful.trans`).

The rest is the bookkeeping that this needs. A growing builder keeps the values its encoded nodes
read (`Builder.Grows.evalNode_eq`), the rows and nodes of a sound builder read only its columns
(`Row.admits_congr`, `Builder.evalNode_agree`), and a point extends by values for the new columns
(`FlatModel.Point.extend`).

## Main definitions

* `MipLowering.Column.Fits`, `MipLowering.FlatModel.Point`.
* `MipLowering.AgreeOn`, `MipLowering.firstValues` — assignments equal on the first columns.
* `MipLowering.Builder.Reads`, `MipLowering.Builder.Agrees`, `MipLowering.Builder.Consistent`.
* `MipLowering.Builder.Faithful`.

## Main results

* `MipLowering.evalNode_congr` — the value of a node reads the columns below it only.
* `MipLowering.Builder.Grows.evalNode_eq`, `MipLowering.Builder.evalNode_agree`.
* `MipLowering.FlatModel.Point.extend`, `MipLowering.Builder.Faithful.trans`.
-/

namespace MipLowering

open ERat

/-! ### Points -/

/-- Column `c` takes the value `x`: within its bounds, and an integer on an integral column. -/
def Column.Fits (c : Column ERat) (x : ℚ) : Prop :=
  c.lower ≤ fin x ∧ fin x ≤ c.upper ∧ (c.isIntegral = true → ∃ z : ℤ, x = z)

/-- A point of a flat model, read exactly: every column has a finite value that it takes, and
every row holds with no tolerance. -/
structure FlatModel.Point (m : FlatModel ERat) (W : Array ERat) : Prop where
  columns : ∀ v c, m.columns[v]? = some c → ∃ x, W.getD v Scalar.zero = fin x ∧ c.Fits x
  rows : ∀ r ∈ m.rows.toList, r.Admits W

/-- The points of a model are read off its columns and rows. -/
theorem FlatModel.point_congr {m m' : FlatModel ERat} (hcols : m'.columns = m.columns)
    (hrows : m'.rows = m.rows) {W : Array ERat} : m'.Point W ↔ m.Point W := by
  constructor <;> intro hW
  · exact ⟨fun v c hv => hW.columns v c (hcols ▸ hv), fun r hr => hW.rows r (hrows ▸ hr)⟩
  · exact ⟨fun v c hv => hW.columns v c (hcols ▸ hv), fun r hr => hW.rows r (hrows ▸ hr)⟩

/-- A binary column over `[0, 1]` takes `0` and `1`. -/
theorem Column.fits_ofBool {c : Column ERat} (hc : c.kind = .binary ∧ c.lower = Scalar.zero ∧
    c.upper = Scalar.one) (z : Bool) : c.Fits (ofBool z).toRat := by
  obtain ⟨hk, hl, hu⟩ := hc
  refine ⟨?_, ?_, fun _ => ⟨if z then 1 else 0, by cases z <;> simp [ofBool]⟩⟩
  · rw [hl]
    cases z <;> simp [ofBool, zero_eq_fin]
  · rw [hu]
    cases z <;> simp [ofBool, one_eq_fin]

/-- A value that a binary column over `[0, 1]` takes is `0` or `1`. -/
theorem Column.Fits.eq_ofBool {c : Column ERat} (hc : c.kind = .binary ∧ c.lower = Scalar.zero ∧
    c.upper = Scalar.one) {x : ℚ} (h : c.Fits x) : ∃ z : Bool, fin x = ofBool z := by
  obtain ⟨hk, hl, hu⟩ := hc
  obtain ⟨z, rfl⟩ := h.2.2 (by simp [Column.isIntegral, hk])
  have h0 : (0 : ℤ) ≤ z := by
    have h₁ := h.1
    rw [hl, zero_eq_fin, fin_le_fin] at h₁
    exact_mod_cast h₁
  have h1 : z ≤ (1 : ℤ) := by
    have h₂ := h.2.1
    rw [hu, one_eq_fin, fin_le_fin] at h₂
    exact_mod_cast h₂
  rcases (by omega : z = 0 ∨ z = 1) with rfl | rfl
  · exact ⟨false, by simp [ofBool]⟩
  · exact ⟨true, by simp [ofBool]⟩

/-! ### Assignments equal on the first columns -/

/-- Two assignments agree on the first `k` columns. -/
def AgreeOn (k : Nat) (V W : Array ERat) : Prop :=
  ∀ v < k, V.getD v Scalar.zero = W.getD v Scalar.zero

/-- The values of `W` on the first `n` columns, a missing one read as `0`. -/
def firstValues (W : Array ERat) (n : Nat) : Array ERat :=
  Array.ofFn fun i : Fin n => W.getD i Scalar.zero

namespace AgreeOn

variable {k : Nat} {U V W : Array ERat}

theorem refl (k : Nat) (V : Array ERat) : AgreeOn k V V := fun _ _ => rfl

theorem symm (h : AgreeOn k V W) : AgreeOn k W V := fun v hv => (h v hv).symm

theorem trans (h : AgreeOn k U V) (h' : AgreeOn k V W) : AgreeOn k U W :=
  fun v hv => (h v hv).trans (h' v hv)

theorem mono (h : AgreeOn k V W) {j : Nat} (hj : j ≤ k) : AgreeOn j V W :=
  fun v hv => h v (Nat.lt_of_lt_of_le hv hj)

/-- Pushing a value onto an assignment of `k` columns keeps the first `k`. -/
theorem push_left (h : AgreeOn k V W) (hV : V.size = k) (x : ERat) : AgreeOn k (V.push x) W :=
  fun v hv => by rw [getD_push_of_lt (hV ▸ hv), h v hv]

/-- Pushing the next value of `W` onto its first `k` values. -/
theorem push (h : AgreeOn k V W) (hV : V.size = k) :
    AgreeOn (k + 1) (V.push (W.getD k Scalar.zero)) W := by
  intro v hv
  rcases Nat.lt_succ_iff_lt_or_eq.1 hv with hv | rfl
  · exact h.push_left hV _ v hv
  · rw [← hV, getD_push_size, hV]

end AgreeOn

@[simp] theorem size_firstValues (W : Array ERat) (n : Nat) : (firstValues W n).size = n :=
  Array.size_ofFn

theorem agreeOn_firstValues (W : Array ERat) (n : Nat) : AgreeOn n (firstValues W n) W := by
  intro v hv
  rw [firstValues, Array.getD_eq_getD_getElem?, Array.getElem?_ofFn, dif_pos hv, Option.getD_some]

/-! ### Rows read the columns of their terms -/

namespace Row

variable {r : Row ERat} {k : Nat} {V W : Array ERat}

theorem activity_congr (h : ∀ t ∈ r.terms, V.getD t.1 Scalar.zero = W.getD t.1 Scalar.zero) :
    r.activity V = r.activity W := by
  unfold Row.activity
  rw [List.map_congr_left fun t ht => by rw [h t ht]]

theorem admits_congr (hr : r.OnColumns k) (h : AgreeOn k V W) : r.Admits V ↔ r.Admits W := by
  rw [Row.Admits, Row.Admits, activity_congr fun t ht => h t.1 (hr t ht)]

end Row

/-! ### Nodes read the columns below them -/

theorem evalNode_stuck {nodes : Array (Node ERat)} {V : Array ERat} {id : Nat} {n : Node ERat}
    (hn : nodes[id]? = some n) (hx : n.expansion = .stuck) : evalNode nodes V id = 0 := by
  rw [evalNode, hn]
  simp only [hx]

/-- Two arenas and assignments give a node the same value when the nodes below it, along the
operands of the nodes that `P` picks, are the same and their columns have the same values. By
strong induction on the node, one case per expansion. -/
theorem evalNode_congr {nodes nodes' : Array (Node ERat)} {V W : Array ERat} {P : Nat → Prop}
    (hord : OperandsPrecede nodes)
    (hP : ∀ j, P j → ∃ n, nodes[j]? = some n ∧ nodes'[j]? = some n ∧ (∀ c ∈ n.kind.children, P c) ∧
      ∀ v, n.expansion = .column v → V.getD v Scalar.zero = W.getD v Scalar.zero) :
    ∀ j, P j → evalNode nodes V j = evalNode nodes' W j := by
  intro j
  induction j using Nat.strong_induction_on with
  | _ j ih =>
  intro hj
  obtain ⟨n, hn, hn', hkids, hcols⟩ := hP j hj
  cases hx : n.expansion with
  | view base scale offset =>
    have hb := hord.view_lt hn hx
    obtain ⟨sh, hk⟩ := Node.expansion_view hx
    rw [evalNode_view hn hx hb, evalNode_view hn' hx hb,
      ih base hb (hkids base (by simp [hk, Kind.children]))]
  | column v => rw [evalNode_column hn hx, evalNode_column hn' hx, hcols v hx]
  | sum terms offset =>
    have hlt : ∀ t ∈ terms, t.1 < j := fun t ht => hord.sum_lt hn hx ht
    obtain ⟨vars, weights, hk, rfl⟩ := Node.expansion_sum hx
    rw [evalNode_sum hn hx hlt, evalNode_sum hn' hx hlt]
    congr 2
    refine List.map_congr_left fun t ht => ?_
    rw [ih t.1 (hlt t ht) (hkids t.1 (by rw [hk, Kind.children]; exact (List.of_mem_zip ht).1))]
  | posted => rw [evalNode_posted hn hx, evalNode_posted hn' hx]
  | stuck => rw [evalNode_stuck hn hx, evalNode_stuck hn' hx]

namespace Builder

variable {b b' b'' : Builder ERat}

/-- An encoded node of a sound builder is in the arena, its operands are encoded, and the column
of its encoding is one of the model. -/
theorem Sound.encoded_node (hs : b.Sound) {j : Nat} (hj : b.Encoded j) :
    ∃ n, b.nodes[j]? = some n ∧ n.encoding.isSome ∧ (∀ c ∈ n.kind.children, b.Encoded c) ∧
      ∀ v, n.expansion = .column v → v < b.model.columns.size := by
  obtain ⟨n, hn, he⟩ := hj
  exact ⟨n, hn, he, hs.operands j n hn he,
    fun v hv => hs.columns j n v hn (Node.expansion_column hv)⟩

/-- The encoded nodes of a sound builder read its columns only. -/
theorem evalNode_agree (hs : b.Sound) {V W : Array ERat} (h : AgreeOn b.model.columns.size V W)
    {j : Nat} (hj : b.Encoded j) : evalNode b.nodes V j = evalNode b.nodes W j := by
  refine evalNode_congr hs.operandsPrecede (fun i hi => ?_) j hj
  obtain ⟨n, hn, -, hkids, hcols⟩ := hs.encoded_node hi
  exact ⟨n, hn, hn, hkids, fun v hv => h v (hcols v hv)⟩

/-- Below an encoded node of a sound builder, through views and affine sums, every node is
encoded. -/
theorem Sound.encoded_of_below (hs : b.Sound) {a m : Nat} (hb : Row.Below b.nodes a m)
    (ha : b.Encoded a) : b.Encoded m := by
  induction hb with
  | refl => exact ha
  | view hn hx _ ih =>
    obtain ⟨sh, hk⟩ := Node.expansion_view hx
    obtain ⟨n', hn', he⟩ := ha
    rw [hn, Option.some.injEq] at hn'
    subst hn'
    exact ih (hs.operands _ _ hn he _ (by simp [hk, Kind.children]))
  | sum hn hx ht _ ih =>
    obtain ⟨vars, weights, hk, rfl⟩ := Node.expansion_sum hx
    obtain ⟨n', hn', he⟩ := ha
    rw [hn, Option.some.injEq] at hn'
    subst hn'
    exact ih (hs.operands _ _ hn he _ (by rw [hk, Kind.children]; exact (List.of_mem_zip ht).1))

/-- The columns that the fold of an encoded node of a sound builder meets are columns of the
model. -/
theorem Sound.columnOf_lt (hs : b.Sound) {a v : Nat} (ha : b.Encoded a)
    (hv : Row.ColumnOf b.nodes a v) : v < b.model.columns.size := by
  obtain ⟨m, n, hm, hn, hx⟩ := hv
  obtain ⟨n', hn', he⟩ := hs.encoded_of_below hm ha
  rw [hn, Option.some.injEq] at hn'
  subst hn'
  exact hs.columns m n v hn (Node.expansion_column hx)

namespace Grows

/-- An encoded node is kept as it is. -/
theorem getElem?_of_encoded (hg : b.Grows b') {j : Nat} {n : Node ERat} (hn : b.nodes[j]? = some n)
    (he : n.encoding.isSome) : b'.nodes[j]? = some n := by
  obtain ⟨e, he', hor⟩ := hg.nodes j n hn
  rcases hor with rfl | hj
  · exact he'
  · rw [hg.fresh j hj n hn] at he
    cases he

theorem encoded_mono (hg : b.Grows b') {j : Nat} (hj : b.Encoded j) : b'.Encoded j := by
  obtain ⟨n, hn, he⟩ := hj
  exact ⟨n, hg.getElem?_of_encoded hn he, he⟩

/-- A growing builder keeps the values of the nodes encoded in a sound builder. -/
theorem evalNode_eq (hg : b.Grows b') (hs : b.Sound) (W : Array ERat) {j : Nat}
    (hj : b.Encoded j) : evalNode b'.nodes W j = evalNode b.nodes W j := by
  refine (evalNode_congr hs.operandsPrecede (fun i hi => ?_) j hj).symm
  obtain ⟨n, hn, he, hkids, -⟩ := hs.encoded_node hi
  exact ⟨n, hn, hg.getElem?_of_encoded hn he, hkids, fun _ _ => rfl⟩

theorem getElem?_columns (hg : b.Grows b') {v : Nat} {c : Column ERat}
    (hv : b.model.columns[v]? = some c) : b'.model.columns[v]? = some c := by
  have hlt : v < b.model.columns.toList.length := by
    simpa using (Array.getElem?_eq_some_iff.1 hv).1
  rw [← Array.getElem?_toList, List.prefix_iff_getElem?.1 hg.columns v hlt, ← hv,
    ← Array.getElem?_toList, List.getElem?_eq_getElem hlt]

theorem size_columns_le (hg : b.Grows b') : b.model.columns.size ≤ b'.model.columns.size := by
  simpa using hg.columns.length_le

theorem mem_rows (hg : b.Grows b') {r : Row ERat} (hr : r ∈ b.model.rows.toList) :
    r ∈ b'.model.rows.toList :=
  hg.rows.subset hr

/-- The rows of a grown model: the old ones, then the added ones. -/
theorem mem_rows_iff (hg : b.Grows b') {r : Row ERat} :
    r ∈ b'.model.rows.toList ↔ r ∈ b.model.rows.toList ∨ r ∈ Lowering.addedRows b b' := by
  obtain ⟨t, ht⟩ := hg.rows
  rw [← ht, List.mem_append, Lowering.addedRows, ← ht, ← Array.length_toList, List.drop_left]

/-- A point of a grown model is a point of the model it grew from. -/
theorem point (hg : b.Grows b') {W : Array ERat} (h : b'.model.Point W) : b.model.Point W :=
  ⟨fun v c hv => h.columns v c (hg.getElem?_columns hv), fun r hr => h.rows r (hg.mem_rows hr)⟩

end Grows

/-! ### Values read at a point -/

/-- At `W` every encoded node takes the value `val` gives it. -/
def Reads (b : Builder ERat) (val : Nat → ℚ) (W : Array ERat) : Prop :=
  ∀ j, b.Encoded j → evalNode b.nodes W j = val j

/-- At `W` every encoded variable takes the value `val` gives it. -/
def Agrees (b : Builder ERat) (val : Nat → ℚ) (W : Array ERat) : Prop :=
  ∀ j n, b.nodes[j]? = some n → n.kind.isVariable = true → n.encoding.isSome →
    evalNode b.nodes W j = val j

/-- `val` gives every encoded node a value that it denotes from the values of its operands, an
integer, and one within its bounds. -/
def Consistent (b : Builder ERat) (val : Nat → ℚ) : Prop :=
  ∀ j n, b.nodes[j]? = some n → n.encoding.isSome →
    n.kind.Denotes val (val j) ∧ (∃ z : ℤ, val j = z) ∧ Encloses n.lower n.upper n.continuous (val j)

variable {val : Nat → ℚ} {V W : Array ERat}

theorem Reads.agrees (h : b.Reads val W) : b.Agrees val W :=
  fun j n hn _ he => h j ⟨n, hn, he⟩

theorem Reads.agree (hs : b.Sound) (h : b.Reads val V) (hVW : AgreeOn b.model.columns.size V W) :
    b.Reads val W :=
  fun j hj => (evalNode_agree hs hVW hj).symm.trans (h j hj)

namespace Grows

theorem reads (hg : b.Grows b') (hs : b.Sound) (h : b.Reads val W) {j : Nat} (hj : b.Encoded j) :
    evalNode b'.nodes W j = val j :=
  (hg.evalNode_eq hs W hj).trans (h j hj)

theorem agrees (hg : b.Grows b') (hs : b.Sound) (h : b'.Agrees val W) : b.Agrees val W := by
  intro j n hn hv he
  rw [← hg.evalNode_eq hs W ⟨n, hn, he⟩]
  exact h j n (hg.getElem?_of_encoded hn he) hv he

theorem consistent (hg : b.Grows b') (h : b'.Consistent val) : b.Consistent val :=
  fun j n hn he => h j n (hg.getElem?_of_encoded hn he) he

end Grows

/-- An encoded node of a builder that `val` is consistent with takes a value it denotes. -/
theorem Consistent.denotes (h : b.Consistent val) {j : Nat} {n : Node ERat}
    (hn : b.nodes[j]? = some n) (he : n.encoding.isSome) : n.kind.Denotes val (val j) :=
  (h j n hn he).1

theorem Consistent.integral (h : b.Consistent val) {j : Nat} (hj : b.Encoded j) :
    ∃ z : ℤ, val j = z := by
  obtain ⟨n, hn, he⟩ := hj
  exact (h j n hn he).2.1

theorem Consistent.encloses (h : b.Consistent val) {j : Nat} {n : Node ERat}
    (hn : b.nodes[j]? = some n) (he : n.encoding.isSome) :
    Encloses n.lower n.upper n.continuous (val j) :=
  (h j n hn he).2.2

/-! ### Faithful steps -/

/-- The step from `b` to `b'` is faithful to `val`, asserting `A`: at a point of `b'` where the
nodes encoded in `b` and the variables encoded in `b'` take their values, every node encoded in
`b'` does and `A` holds; and when `A` holds, every point of `b` of its size that reads `val`
extends to such a point of `b'`. -/
structure Faithful (val : Nat → ℚ) (b b' : Builder ERat) (A : Prop) : Prop where
  sound : ∀ W, b'.model.Point W → b.Reads val W → b'.Agrees val W → b'.Reads val W ∧ A
  complete : ∀ W, W.size = b.model.columns.size → b.model.Point W → b.Reads val W → A →
    ∃ W', W'.size = b'.model.columns.size ∧ b'.model.Point W' ∧ b'.Reads val W'

namespace Faithful

variable {A B : Prop}

theorem refl (b : Builder ERat) : Faithful val b b True :=
  ⟨fun _ _ hR _ => ⟨hR, trivial⟩, fun W hsize hW hR _ => ⟨W, hsize, hW, hR⟩⟩

theorem of_iff (h : Faithful val b b' A) (hAB : A ↔ B) : Faithful val b b' B :=
  ⟨fun W hW hR hA => (h.sound W hW hR hA).imp_right hAB.1,
    fun W hsize hW hR hB => h.complete W hsize hW hR (hAB.2 hB)⟩

/-- A step that keeps the flat model, grows the builder and encodes no node is faithful, asserting
nothing. -/
theorem of_model (hg : b.Grows b') (hs : b.Sound) (hmodel : b'.model = b.model)
    (henc : ∀ j, b'.Encoded j → b.Encoded j) : Faithful val b b' True := by
  have hR : ∀ W, b.Reads val W → b'.Reads val W := fun W hR j hj => hg.reads hs hR (henc j hj)
  constructor
  · exact fun W _ hRW _ => ⟨hR W hRW, trivial⟩
  · intro W hsize hW hRW _
    rw [← hmodel] at hsize hW
    exact ⟨W, hsize, hW, hR W hRW⟩

/-- A faithful step stays one when its end is replaced by a builder with the same arena, columns
and rows. -/
theorem congr_points (h : Faithful val b b' A) (hnodes : b''.nodes = b'.nodes)
    (hcols : b''.model.columns = b'.model.columns) (hrows : b''.model.rows = b'.model.rows) :
    Faithful val b b'' A := by
  have hR : ∀ W, b''.Reads val W ↔ b'.Reads val W := fun W => by simp only [Reads, Encoded, hnodes]
  have hAg : ∀ W, b''.Agrees val W ↔ b'.Agrees val W := fun W => by simp only [Agrees, hnodes]
  constructor
  · intro W hW hRW hAgW
    obtain ⟨hR', hA⟩ := h.sound W ((FlatModel.point_congr hcols hrows).1 hW) hRW ((hAg W).1 hAgW)
    exact ⟨(hR W).2 hR', hA⟩
  · intro W hsize hW hRW hA
    obtain ⟨W', hsize', hW', hR'⟩ := h.complete W hsize hW hRW hA
    exact ⟨W', by rw [hcols, hsize'], (FlatModel.point_congr hcols hrows).2 hW', (hR W').2 hR'⟩

/-- A faithful step stays one when its end is replaced by a builder with the same arena and model. -/
theorem congr_right (h : Faithful val b b' A) (hnodes : b''.nodes = b'.nodes)
    (hmodel : b''.model = b'.model) : Faithful val b b'' A :=
  h.congr_points hnodes (by rw [hmodel]) (by rw [hmodel])

/-- Faithful steps compose, their assertions conjoined. -/
theorem trans (hg : b'.Grows b'') (hs : b'.Sound) (h : Faithful val b b' A)
    (h' : Faithful val b' b'' B) : Faithful val b b'' (A ∧ B) := by
  constructor
  · intro W hW hR hAg
    obtain ⟨hR', hA⟩ := h.sound W (hg.point hW) hR (hg.agrees hs hAg)
    obtain ⟨hR'', hB⟩ := h'.sound W hW hR' hAg
    exact ⟨hR'', hA, hB⟩
  · rintro W hsize hW hR ⟨hA, hB⟩
    obtain ⟨W', hsize', hW', hR'⟩ := h.complete W hsize hW hR hA
    exact h'.complete W' hsize' hW' hR' hB

end Faithful

end Builder

/-! ### Extending a point -/

namespace FlatModel.Point

variable {b b' : Builder ERat} {val : Nat → ℚ} {V W W' : Array ERat}

/-- A point of a sound model stays one at every assignment that agrees with it on its columns. -/
theorem congr_of_sound (hs : b.Sound) (h : b.model.Point V) (hVW : AgreeOn b.model.columns.size V W) :
    b.model.Point W := by
  refine ⟨fun v c hv => ?_, fun r hr => (Row.admits_congr (hs.rows r hr) hVW).1 (h.rows r hr)⟩
  rw [← hVW v (Array.getElem?_eq_some_iff.1 hv).1]
  exact h.columns v c hv

/-- A point of a sound builder extends to a grown one by values for its new columns that they
take, when the rows added hold. -/
theorem extend (hg : b.Grows b') (hs : b.Sound) (h : b.model.Point W)
    (hWW' : AgreeOn b.model.columns.size W W')
    (hnew : ∀ v c, b.model.columns.size ≤ v → b'.model.columns[v]? = some c →
      ∃ x, W'.getD v Scalar.zero = fin x ∧ c.Fits x)
    (hrows : Lowering.AddedRowsAdmit b b' W') : b'.model.Point W' := by
  have h' := h.congr_of_sound hs hWW'
  refine ⟨fun v c hv => ?_, fun r hr => ?_⟩
  · by_cases hlt : v < b.model.columns.size
    · have hv₀ := Array.getElem?_eq_getElem hlt
      obtain rfl : c = b.model.columns[v] :=
        Option.some.inj (hv.symm.trans (hg.getElem?_columns hv₀))
      exact h'.columns v _ hv₀
    · exact hnew v c (Nat.le_of_not_lt hlt) hv
  · rcases hg.mem_rows_iff.1 hr with hr | hr
    · exact h'.rows r hr
    · exact hrows r hr

/-- The columns of a point's model have finite values within their bounds, at every assignment
that agrees with it on them. -/
theorem inBounds {m : FlatModel ERat} (h : m.Point W) (hVW : AgreeOn m.columns.size V W) {v : Nat}
    (hv : v < m.columns.size) : InBounds m.columns V v := by
  obtain ⟨x, hx, hfit⟩ := h.columns v _ (Array.getElem?_eq_getElem hv)
  exact ⟨_, x, Array.getElem?_eq_getElem hv, (hVW v hv).trans hx, hfit.1, hfit.2.1⟩

/-- A row on the columns of a point's model has its values within bounds at every assignment that
agrees with the point on them. -/
theorem within {m : FlatModel ERat} (h : m.Point W) (hVW : AgreeOn m.columns.size V W)
    {r : Row ERat} (hr : r.OnColumns m.columns.size) : r.Within m.columns V := by
  intro t ht
  exact h.inBounds hVW (hr t ht)

/-- A point of a sound builder that reads `val` cut to the size of the model. -/
theorem exists_sized (hs : b.Sound) (h : b.model.Point W) (hR : b.Reads val W) :
    ∃ W', W'.size = b.model.columns.size ∧ b.model.Point W' ∧ b.Reads val W' :=
  ⟨firstValues W _, size_firstValues _ _,
    h.congr_of_sound hs (agreeOn_firstValues W _).symm, hR.agree hs (agreeOn_firstValues W _).symm⟩

end FlatModel.Point

end MipLowering
