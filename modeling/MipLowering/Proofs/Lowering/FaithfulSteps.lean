import MipLowering.Proofs.Lowering.Points

/-!
# Faithful steps that encode one node

Most encodings of a node add fresh columns and rows and then record the node's encoding, keeping
the arena. Such a step is faithful to values `val` as soon as the rows pin the encoding to
`val id` at every point, and, conversely, some values of the fresh columns that the columns take
satisfy the rows and give the encoding the value `val id` (`Builder.Faithful.encodeAs`).

Fresh columns are mostly binaries over `[0, 1]`: an indicator, a side binary, an order binary.
`Lowering.AddsBinaries x k` says that a step adds at most `k` of them and rows, and keeps the
arena; a relation adds at most one at top level and two nested (`encodeRel_addsBinaries`), and
each fresh binary is an indicator column (`Builder.AddsBinaries.indicator`). A point of the grown
model reads bits at the fresh binaries, and its first values followed by these bits agree with it
on every column (`agreeOn_pushBits`).

The context of these steps, `Builder.Lowerable`, is what a builder of an integer model keeps while
it lowers: soundness, the default configuration, integer data at every node
(`Kind.IntegerData`) and the derived bounds. With integer operands and the default separation,
strict relations lose nothing: no integer lies in the gap of a relation
(`Rel.strict_iff_holds_of_int`).

## Main definitions

* `MipLowering.Builder.encodeAs` — the builder after recording an encoding.
* `MipLowering.Lowering.AddsBinaries`, `MipLowering.pushBits`.
* `MipLowering.Kind.IntegerData`, `MipLowering.Builder.Lowerable`.

## Main results

* `MipLowering.Builder.Faithful.encodeAs`.
* `MipLowering.Lowering.encodeRel_addsBinaries`, `MipLowering.agreeOn_pushBits`.
* `MipLowering.Rel.strict_iff_holds_of_int`.
-/

namespace MipLowering

open ERat

/-! ### Recording an encoding -/

namespace Builder

variable {α : Type}

/-- The builder with node `id` recorded as encoded by `e`, as `Lowering.setEncoding` leaves it. -/
def encodeAs (b : Builder α) (id : Nat) (e : Encoding) : Builder α :=
  { b with nodes := b.nodes.modify id (fun n => { n with encoding := some e }),
           encoded := b.encoded ++ [id] }

variable {b b₀ : Builder α} {id j : Nat} {e : Encoding} {n : Node α}

@[simp] theorem encodeAs_model : (b.encodeAs id e).model = b.model := rfl

@[simp] theorem encodeAs_config : (b.encodeAs id e).config = b.config := rfl

theorem getElem?_encodeAs_self (hn : b.nodes[id]? = some n) :
    (b.encodeAs id e).nodes[id]? = some { n with encoding := some e } := by
  simp [encodeAs, Array.getElem?_modify, hn]

theorem getElem?_encodeAs_of_ne (h : j ≠ id) : (b.encodeAs id e).nodes[j]? = b.nodes[j]? := by
  simp [encodeAs, Array.getElem?_modify, Ne.symm h]

/-- A node encoded after recording an encoding is the recorded one or was encoded before. -/
theorem encoded_encodeAs (hj : (b.encodeAs id e).Encoded j) : j = id ∨ b.Encoded j := by
  by_cases h : j = id
  · exact .inl h
  · obtain ⟨m, hm, he⟩ := hj
    exact .inr ⟨m, (getElem?_encodeAs_of_ne h).symm.trans hm, he⟩

theorem unencoded_of_getElem? (hn : b.nodes[id]? = some n) (hnone : n.encoding = none) :
    b.Unencoded id := fun m hm => by
  rw [hn, Option.some.injEq] at hm
  exact hm ▸ hnone

theorem Grows.encodeAs (hg : b₀.Grows b) (hid : b₀.Unencoded id) (e : Encoding) :
    b₀.Grows (b.encodeAs id e) :=
  hg.setEncoding hid e

end Builder

namespace Lowering

theorem setEncoding_run_encodeAs {α : Type} [Scalar α] (id : Nat) (e : Encoding) (b : Builder α) :
    (setEncoding id e).run b = .ok () (b.encodeAs id e) := rfl

end Lowering

/-- Conditions are not views. -/
theorem Kind.ne_view_of_isCondition {k : Kind ERat} (h : k.isCondition = true) :
    ∀ sh base scale offset, k ≠ .view sh base scale offset := by
  rintro sh base scale offset rfl
  cases h

/-- A node of a kind other than a view, encoded by a column, takes the value of the column. -/
theorem evalNode_encodeAs_column {b : Builder ERat} {id v : Nat} {n : Node ERat}
    (hn : b.nodes[id]? = some n) (hk : ∀ sh base scale offset, n.kind ≠ .view sh base scale offset)
    (W : Array ERat) :
    evalNode (b.encodeAs id (.column v)).nodes W id = (W.getD v Scalar.zero).toRat := by
  refine evalNode_column (Builder.getElem?_encodeAs_self hn) ?_
  obtain ⟨k, lo, hi, c, enc⟩ := n
  cases k <;> first | rfl | exact absurd rfl (hk _ _ _ _)

/-- A node of a kind other than a view, encoded as posted, takes the value `1`. -/
theorem evalNode_encodeAs_posted {b : Builder ERat} {id : Nat} {n : Node ERat}
    (hn : b.nodes[id]? = some n) (hk : ∀ sh base scale offset, n.kind ≠ .view sh base scale offset)
    (W : Array ERat) : evalNode (b.encodeAs id .posted).nodes W id = 1 := by
  refine evalNode_posted (Builder.getElem?_encodeAs_self hn) ?_
  obtain ⟨k, lo, hi, c, enc⟩ := n
  cases k <;> first | rfl | exact absurd rfl (hk _ _ _ _)

/-! ### Steps that encode one node -/

namespace Builder

variable {val : Nat → ℚ} {b b₁ : Builder ERat} {id : Nat} {e : Encoding} {A : Prop}

/-- Pushing a node without encoding keeps the model and encodes nothing: a faithful step that
asserts nothing. -/
theorem Faithful.pushNode_none (hs : b.Sound) {n : Node ERat} (hn : n.encoding = none) :
    Faithful val b (b.pushNode n).2 True := by
  refine Faithful.of_model ((Grows.refl b).pushNode _) hs rfl fun j hj => ?_
  obtain ⟨m, hm, he⟩ := hj
  refine ⟨m, ?_, he⟩
  simp only [Builder.pushNode, Array.getElem?_push] at hm
  split_ifs at hm
  · cases hm
    rw [hn] at he
    cases he
  · exact hm

/-- The step that adds columns and rows to `b`, keeping its arena, and then records the encoding
`e` of node `id`, is faithful when, at every point of the grown model that reads `val` on the
nodes of `b`, the node takes `val id` and `A` holds; and when `A` holds, every point of `b` that
reads `val` extends, by values of the new columns that they take and that satisfy the new rows, to
one where the node takes `val id`. -/
theorem Faithful.encodeAs (hs : b.Sound) (hg : b.Grows b₁) (hnodes : b₁.nodes = b.nodes)
    (hid : b.Unencoded id) (hs₂ : (b₁.encodeAs id e).Sound)
    (hsound : ∀ W, b₁.model.Point W → b.Reads val W → (b₁.encodeAs id e).Agrees val W →
      evalNode (b₁.encodeAs id e).nodes W id = val id ∧ A)
    (hcomplete : ∀ W, W.size = b.model.columns.size → b.model.Point W → b.Reads val W → A →
      ∃ U, AgreeOn b.model.columns.size W U ∧
        (∀ v c, b.model.columns.size ≤ v → b₁.model.columns[v]? = some c →
          ∃ x, U.getD v Scalar.zero = fin x ∧ c.Fits x) ∧
        Lowering.AddedRowsAdmit b b₁ U ∧ evalNode (b₁.encodeAs id e).nodes U id = val id) :
    Faithful val b (b₁.encodeAs id e) A := by
  have hg₂ := hg.encodeAs hid e
  -- the nodes encoded after the step are those of `b` and the node itself
  have hreads : ∀ W, b.Reads val W → evalNode (b₁.encodeAs id e).nodes W id = val id →
      (b₁.encodeAs id e).Reads val W := by
    intro W hR hid' j hj
    rcases encoded_encodeAs hj with rfl | hj₁
    · exact hid'
    · obtain ⟨m, hm, he⟩ := hj₁
      exact hg₂.reads hs hR ⟨m, hnodes ▸ hm, he⟩
  constructor
  · intro W hW hR hAg
    obtain ⟨hval, hA⟩ := hsound W hW hR hAg
    exact ⟨hreads W hR hval, hA⟩
  · intro W hsize hW hR hA
    obtain ⟨U, hWU, hfit, hrows, hval⟩ := hcomplete W hsize hW hR hA
    have hU : b₁.model.Point U := hW.extend hg hs hWU hfit hrows
    exact FlatModel.Point.exists_sized hs₂ hU (hreads U (hR.agree hs hWU) hval)

end Builder

/-! ### Steps that add binaries -/

namespace Builder.AddsBinaries

variable {b b' : Builder ERat} {k : Nat} {W : Array ERat}

/-- The columns beyond those of `b` are binaries over `[0, 1]`. -/
theorem new_column (h : b.AddsBinaries b' k) {v : Nat} {c : Column ERat}
    (hv : b.model.columns.size ≤ v) (hc : b'.model.columns[v]? = some c) :
    c.kind = .binary ∧ c.lower = Scalar.zero ∧ c.upper = Scalar.one := by
  obtain ⟨cols, hcols, -, hbin⟩ := h.columns
  rw [← Array.getElem?_toList, hcols, List.getElem?_append_right (by simpa using hv)] at hc
  exact hbin c (List.mem_of_getElem? hc)

/-- A point of the grown model reads a bit at every new column. -/
theorem bits (h : b.AddsBinaries b' k) (hW : b'.model.Point W) :
    ∀ v, b.model.columns.size ≤ v → v < b'.model.columns.size →
      ∃ z : Bool, W.getD v Scalar.zero = ofBool z := by
  intro v hv hlt
  have hc := Array.getElem?_eq_getElem hlt
  obtain ⟨x, hx, hfit⟩ := hW.columns v _ hc
  obtain ⟨z, hz⟩ := hfit.eq_ofBool (h.new_column hv hc)
  exact ⟨z, hx.trans hz⟩

/-- Bits at the new columns are values they take. -/
theorem fits (h : b.AddsBinaries b' k) {U : Array ERat}
    (hU : ∀ v, b.model.columns.size ≤ v → v < b'.model.columns.size →
      ∃ z : Bool, U.getD v Scalar.zero = ofBool z) :
    ∀ v c, b.model.columns.size ≤ v → b'.model.columns[v]? = some c →
      ∃ x, U.getD v Scalar.zero = fin x ∧ c.Fits x := by
  intro v c hv hc
  obtain ⟨z, hz⟩ := hU v hv (Array.getElem?_eq_some_iff.1 hc).1
  refine ⟨(ofBool z).toRat, ?_, Column.fits_ofBool (h.new_column hv hc) z⟩
  rw [hz]
  cases z <;> rfl

end Builder.AddsBinaries

namespace Lowering

variable {β γ : Type}

/-- Run from any builder, a step that succeeds adds at most `k` binary columns over `[0, 1]` and
rows, and keeps the arena. -/
def AddsBinaries (x : Lowering ERat β) (k : Nat) : Prop :=
  ∀ b a b', x.run b = .ok a b' → ∃ j ≤ k, b.AddsBinaries b' j

namespace AddsBinaries

variable {x : Lowering ERat β} {k k' : Nat}

theorem pure (a : β) : AddsBinaries (Pure.pure a : Lowering ERat β) 0 := by
  intro b a' b' h
  cases h
  exact ⟨0, le_rfl, .refl b⟩

theorem throw (e : ModelError ERat) : AddsBinaries (MonadExcept.throw e : Lowering ERat β) k := by
  intro b a b' h
  cases h

theorem mono (h : AddsBinaries x k) (hk : k ≤ k') : AddsBinaries x k' := by
  intro b a b' hrun
  obtain ⟨j, hj, hadd⟩ := h b a b' hrun
  exact ⟨j, hj.trans hk, hadd⟩

theorem bind {f : β → Lowering ERat γ} (hx : AddsBinaries x k) (hf : ∀ a, AddsBinaries (f a) k') :
    AddsBinaries (x >>= f) (k + k') := by
  intro b c b' h
  obtain ⟨a, b₁, h₁, h₂⟩ := run_bind_ok h
  obtain ⟨j, hj, hadd⟩ := hx b a b₁ h₁
  obtain ⟨j', hj', hadd'⟩ := hf a b₁ c b' h₂
  exact ⟨j + j', Nat.add_le_add hj hj', hadd.trans hadd'⟩

theorem get_bind {f : Builder ERat → Lowering ERat β} (hf : ∀ b, AddsBinaries (f b) k) :
    AddsBinaries (MonadState.get >>= f) k :=
  fun b a b' h => hf b b a b' h

end AddsBinaries

theorem post_addsBinaries (r : Row ERat) : AddsBinaries (post r) 0 := by
  intro b u b' h
  rw [post_run] at h
  cases h
  exact ⟨0, le_rfl, .addRow r⟩

theorem indicator_addsBinaries (id : Nat) (tag : String) : AddsBinaries (indicator id tag) 1 := by
  intro b z b' h
  have hrun : (indicator id tag).run b = .ok b.model.columns.size
      { b with model := (b.model.addColumn
        (if tag.isEmpty then "b" ++ toString id else "b" ++ toString id ++ "." ++ tag)
        .binary Scalar.zero Scalar.one).2 } := rfl
  rw [hrun] at h
  cases h
  exact ⟨1, le_rfl, .addColumn _⟩

theorem separation_addsBinaries (expr : Row ERat) : AddsBinaries (separation expr) 0 := by
  intro b s b' h
  rw [separation_run] at h
  cases h
  exact ⟨0, le_rfl, .refl b⟩

theorem implyLe_addsBinaries (id : Nat) (expr : Row ERat) (bound : ERat) (guards : List Lit) :
    AddsBinaries (implyLe id expr bound guards) 0 := by
  intro b u b' h
  obtain ⟨-, rfl⟩ := implyLe_run_ok h
  exact ⟨0, le_rfl, .addRow _⟩

theorem implyGe_addsBinaries (id : Nat) (expr : Row ERat) (bound : ERat) (guards : List Lit) :
    AddsBinaries (implyGe id expr bound guards) 0 := by
  intro b u b' h
  obtain ⟨-, rfl⟩ := implyGe_run_ok h
  exact ⟨0, le_rfl, .addRow _⟩

theorem reifyBound_addsBinaries (id : Nat) (expr : Row ERat) (holds fails : ERat) (on : Lit)
    (upper : Bool) : AddsBinaries (reifyBound id expr holds fails on upper) 0 := by
  unfold reifyBound
  split
  · exact (implyLe_addsBinaries _ _ _ _).bind fun _ => implyGe_addsBinaries _ _ _ _
  · exact (implyGe_addsBinaries _ _ _ _).bind fun _ => implyLe_addsBinaries _ _ _ _

theorem reifyEq_addsBinaries (id : Nat) (expr : Row ERat) (r sep : ERat) (on : Lit) :
    AddsBinaries (reifyEq id expr r sep on) 1 :=
  (implyLe_addsBinaries _ _ _ _).bind fun _ => (implyGe_addsBinaries _ _ _ _).bind fun _ =>
    (indicator_addsBinaries _ _).bind fun _ => (implyLe_addsBinaries _ _ _ _).bind fun _ =>
      implyGe_addsBinaries _ _ _ _

theorem reifyLe_addsBinaries (id : Nat) (expr : Row ERat) (tag : String) :
    AddsBinaries (reifyLe id expr tag) 1 :=
  (indicator_addsBinaries _ _).bind fun _ => (separation_addsBinaries _).bind fun _ =>
    (reifyBound_addsBinaries _ _ _ _ _ _).bind fun _ => AddsBinaries.pure _

theorem fold_addsBinaries (r : Row ERat) (id : Nat) (coef : ERat) : AddsBinaries (fold r id coef) 0 := by
  intro b r' b' h
  obtain ⟨rfl, -⟩ := fold_run_ok h
  exact ⟨0, le_rfl, .refl _⟩

theorem difference_addsBinaries (a : Nat) (rhs : Operand ERat) (shift : ERat) :
    AddsBinaries (difference a rhs shift) 0 := by
  unfold difference
  show AddsBinaries _ (0 + (0 + 0))
  refine (fold_addsBinaries _ _ _).bind fun _ => ?_
  cases rhs with
  | node c => exact (fold_addsBinaries _ _ _).bind fun _ => AddsBinaries.pure _
  | const k => exact (AddsBinaries.pure _).bind fun _ => AddsBinaries.pure _

theorem addReading_addsBinaries (r : Row ERat) (x : Reading) (coef : ERat) :
    AddsBinaries (addReading r x coef) 0 := by
  cases x with
  | node id => exact fold_addsBinaries r id coef
  | column v => exact AddsBinaries.pure _

theorem foldlM_addsBinaries {f : γ → β → Lowering ERat γ} (hf : ∀ c x, AddsBinaries (f c x) 0) :
    ∀ (l : List β) (init : γ), AddsBinaries (l.foldlM f init) 0
  | [], init => AddsBinaries.pure init
  | x :: l, init => (hf init x).bind fun c => foldlM_addsBinaries hf l c

theorem readingRow_addsBinaries (lhs rhs : ERat) (z : Option Nat) (xs : List Reading) (coef : ERat) :
    AddsBinaries (readingRow lhs rhs z xs coef) 0 :=
  foldlM_addsBinaries (fun r x => addReading_addsBinaries r x coef) xs _

/-- One row of readings, posted. -/
theorem postReadingRow_addsBinaries (lhs rhs : ERat) (z : Option Nat) (xs : List Reading)
    (coef : ERat) :
    AddsBinaries (readingRow lhs rhs z xs coef >>= fun R => post R) 0 :=
  (readingRow_addsBinaries _ _ _ _ _).bind fun _ => post_addsBinaries _

theorem postAnd_addsBinaries (z : Nat) (x y : Reading) : AddsBinaries (postAnd z x y) 0 :=
  (readingRow_addsBinaries _ _ _ _ _).bind fun _ => (post_addsBinaries _).bind fun _ =>
    (readingRow_addsBinaries _ _ _ _ _).bind fun _ => (post_addsBinaries _).bind fun _ =>
      postReadingRow_addsBinaries _ _ _ _ _

theorem postOr_addsBinaries (z : Nat) (x y : Reading) : AddsBinaries (postOr z x y) 0 :=
  (readingRow_addsBinaries _ _ _ _ _).bind fun _ => (post_addsBinaries _).bind fun _ =>
    (readingRow_addsBinaries _ _ _ _ _).bind fun _ => (post_addsBinaries _).bind fun _ =>
      postReadingRow_addsBinaries _ _ _ _ _

/-- A relation adds at most its side binary at top level, and its indicator and side binary
nested. -/
theorem encodeRel_addsBinaries (id : Nat) (rel : Rel) (expr : Row ERat) (top : Bool) :
    AddsBinaries (encodeRel id rel expr top) (if top then 1 else 2) := by
  unfold encodeRel
  cases top with
  | true =>
    show AddsBinaries _ (0 + 1)
    refine (separation_addsBinaries _).bind fun _ => ?_
    simp only [if_true]
    split
    case h_6 =>
      exact (indicator_addsBinaries _ _).bind fun _ => (implyLe_addsBinaries _ _ _ _).bind fun _ =>
        (implyGe_addsBinaries _ _ _ _).bind fun _ => AddsBinaries.pure _
    all_goals exact ((post_addsBinaries _).bind fun _ => AddsBinaries.pure _).mono (by simp)
  | false =>
    show AddsBinaries _ (0 + (1 + 1))
    refine (separation_addsBinaries _).bind fun _ => ?_
    simp only [Bool.false_eq_true, if_false]
    refine (indicator_addsBinaries _ _).bind fun _ => ?_
    split
    case h_5 | h_6 => exact (reifyEq_addsBinaries _ _ _ _ _).bind fun _ => AddsBinaries.pure _
    all_goals
      exact ((reifyBound_addsBinaries _ _ _ _ _ _).bind fun _ => AddsBinaries.pure _).mono (by simp)

/-- A no-overlap pair adds its order binary at top level, and the indicators of its two orderings
and its own nested. -/
theorem encodeNoOverlap_addsBinaries (id first second : Nat) (coefs : List Int) (top : Bool) :
    AddsBinaries (encodeNoOverlap id first second coefs top) (if top then 1 else 3) := by
  unfold encodeNoOverlap
  cases top with
  | true =>
    show AddsBinaries _ (0 + (0 + 1))
    refine (difference_addsBinaries _ _ _).bind fun _ => (difference_addsBinaries _ _ _).bind fun _ => ?_
    exact ((indicator_addsBinaries _ _).bind fun _ => (implyLe_addsBinaries _ _ _ _).bind fun _ =>
      (implyLe_addsBinaries _ _ _ _).bind fun _ => AddsBinaries.pure _).mono (by simp)
  | false =>
    show AddsBinaries _ (0 + (0 + 3))
    refine (difference_addsBinaries _ _ _).bind fun _ => (difference_addsBinaries _ _ _).bind fun _ => ?_
    exact ((reifyLe_addsBinaries _ _ _).bind fun _ => (reifyLe_addsBinaries _ _ _).bind fun _ =>
      (indicator_addsBinaries _ _).bind fun _ => (postOr_addsBinaries _ _ _).bind fun _ =>
        AddsBinaries.pure _).mono (by simp)

/-- A nested relation is lowered to its indicator, the next column. -/
theorem encodeRel_nested_fresh {b b' : Builder ERat} {id : Nat} {rel : Rel} {expr : Row ERat}
    {e : Encoding} (h : (encodeRel id rel expr false).run b = .ok e b') :
    e = .column b.model.columns.size := by
  obtain ⟨σ, b₀, hs, hk⟩ := @run_bind_ok ERat _ _ (separation expr) _ b b' e h
  rw [separation_run] at hs
  cases hs
  simp only [Bool.false_eq_true, if_false] at hk
  obtain ⟨z, b₁, hz, hk⟩ := run_bind_ok hk
  obtain ⟨rfl, -⟩ := indicator_run_ok hz
  cases rel <;> dsimp only at hk <;> obtain ⟨_, b₂, -, hk⟩ := run_bind_ok hk <;> cases hk <;> rfl

/-- A nested no-overlap pair is lowered to the indicator of its disjunction, a column beyond those
of `b`. -/
theorem encodeNoOverlap_nested_fresh {b b' : Builder ERat} {id first second : Nat}
    {coefs : List Int} {e : Encoding}
    (h : (encodeNoOverlap id first second coefs false).run b = .ok e b') :
    ∃ v, e = .column v ∧ b.model.columns.size ≤ v := by
  obtain ⟨before, b₁, h₁, h⟩ := run_bind_ok h
  obtain ⟨after, b₂, h₂, h⟩ := run_bind_ok h
  simp only [Bool.false_eq_true, if_false] at h
  obtain ⟨zb, b₃, h₃, h⟩ := run_bind_ok h
  obtain ⟨za, b₄, h₄, h⟩ := run_bind_ok h
  obtain ⟨z, b₅, h₅, h⟩ := run_bind_ok h
  obtain ⟨_, b₆, -, h⟩ := run_bind_ok h
  cases h
  -- the pair's own indicator comes after the fragments and the indicators of the orderings
  have hg : b.Grows b₄ :=
    (((grows_of_run (difference_undoable _ _ _) h₁).1.trans
      (grows_of_run (difference_undoable _ _ _) h₂).1).trans
        (grows_of_run (reifyLe_undoable _ _ _) h₃).1).trans
          (grows_of_run (reifyLe_undoable _ _ _) h₄).1
  refine ⟨z, rfl, ?_⟩
  rw [(indicator_run_ok h₅).1]
  exact hg.size_columns_le

/-- A nested relation on a difference is lowered to an indicator beyond the columns of `b`. -/
theorem difference_encodeRel_nested_fresh {b b' : Builder ERat} {id a : Nat} {rhs : Operand ERat}
    {shift : ERat} {rel : Rel} {e : Encoding}
    (h : (difference a rhs shift >>= fun expr => encodeRel id rel expr false).run b = .ok e b') :
    ∃ v, e = .column v ∧ b.model.columns.size ≤ v := by
  obtain ⟨expr, b₁, hd, hr⟩ := run_bind_ok h
  exact ⟨_, encodeRel_nested_fresh hr, (grows_of_run (difference_undoable _ _ _) hd).1.size_columns_le⟩

end Lowering

/-! ### Bits read at a point -/

/-- The bit a value reads as: whether it is `1`. -/
def bitOf (x : ERat) : Bool := decide (x = ofBool true)

theorem ofBool_bitOf {x : ERat} {z : Bool} (h : x = ofBool z) : ofBool (bitOf x) = x := by
  subst h
  cases z <;> simp [bitOf, ofBool]

/-- `V` followed by the bits that `W` reads at the `k` columns after those of `V`. -/
def pushBits (V W : Array ERat) : Nat → Array ERat
  | 0 => V
  | k + 1 => (pushBits V W k).push (ofBool (bitOf (W.getD (V.size + k) Scalar.zero)))

@[simp] theorem size_pushBits (V W : Array ERat) (k : Nat) : (pushBits V W k).size = V.size + k := by
  induction k with
  | zero => rfl
  | succ k ih => simp [pushBits, ih, Nat.add_assoc]

/-- The first values of `W` followed by the bits it reads agree with `W` up to `m`, as long as `W`
reads bits between them. By induction on the number of bits. -/
theorem agreeOn_pushBits {V W : Array ERat} (hV : AgreeOn V.size V W) :
    ∀ (k m : Nat), m ≤ V.size + k →
      (∀ v, V.size ≤ v → v < m → ∃ z : Bool, W.getD v Scalar.zero = ofBool z) →
      AgreeOn m (pushBits V W k) W
  | 0, m, hm, _ => hV.mono hm
  | k + 1, m, hm, hbin => by
    intro v hv
    have hsize : (pushBits V W k).size = V.size + k := size_pushBits V W k
    rcases Nat.lt_or_ge v (V.size + k) with hlt | hge
    · -- below the last bit, the shorter list of bits already agrees
      have hk := agreeOn_pushBits hV k (min m (V.size + k)) (Nat.min_le_right _ _)
        fun u hu hu' => hbin u hu (Nat.lt_of_lt_of_le hu' (Nat.min_le_left _ _))
      rw [pushBits, getD_push_of_lt (by rw [hsize]; exact hlt)]
      exact hk v (Nat.lt_min.2 ⟨hv, hlt⟩)
    · obtain rfl : v = V.size + k := by omega
      obtain ⟨z, hz⟩ := hbin _ (Nat.le_add_right _ _) hv
      rw [pushBits, ← hsize, getD_push_size, hsize]
      exact ofBool_bitOf hz

/-- A bit that says whether `P` reads as the value of `P`. -/
theorem toRat_ofBool_eq_ite {z : Bool} {P : Prop} [Decidable P] (h : z = true ↔ P) :
    (ofBool z).toRat = if P then 1 else 0 := by
  rw [toRat_ofBool]
  by_cases hP : P
  · rw [if_pos hP, if_pos (h.2 hP)]
  · rw [if_neg hP, if_neg (mt h.1 hP)]

/-- `V` followed by the bits `zs`. -/
def pushBools (V : Array ERat) (zs : List Bool) : Array ERat :=
  zs.foldl (fun U z => U.push (ofBool z)) V

theorem pushBools_cons (V : Array ERat) (z : Bool) (zs : List Bool) :
    pushBools V (z :: zs) = pushBools (V.push (ofBool z)) zs := rfl

@[simp] theorem size_pushBools (V : Array ERat) (zs : List Bool) :
    (pushBools V zs).size = V.size + zs.length := by
  induction zs generalizing V with
  | nil => rfl
  | cons z zs ih => rw [pushBools_cons, ih]; simp; omega

/-- Pushing bits keeps the values before them. -/
theorem agreeOn_pushBools (V : Array ERat) (zs : List Bool) : AgreeOn V.size V (pushBools V zs) := by
  induction zs generalizing V with
  | nil => exact AgreeOn.refl _ _
  | cons z zs ih =>
    rw [pushBools_cons]
    exact ((AgreeOn.refl V.size V).push_left rfl (ofBool z)).symm.trans
      ((ih (V.push (ofBool z))).mono (by simp))

/-- The `i`-th bit pushed, read back at its column. -/
theorem getD_pushBools_of_lt (V : Array ERat) (zs : List Bool) {i : Nat} (hi : i < zs.length) :
    (pushBools V zs).getD (V.size + i) Scalar.zero = ofBool zs[i] := by
  induction zs generalizing V i with
  | nil => cases hi
  | cons z zs ih =>
    rw [pushBools_cons]
    cases i with
    | zero =>
      rw [Nat.add_zero, ← (agreeOn_pushBools (V.push (ofBool z)) zs) V.size (by simp),
        getD_push_size]
      rfl
    | succ i =>
      have := ih (V.push (ofBool z)) (Nat.lt_of_succ_lt_succ hi)
      rw [Array.size_push] at this
      rw [show V.size + (i + 1) = V.size + 1 + i by omega, this]
      rfl

/-- Pushed bits read as bits. -/
theorem getD_pushBools_bit (V : Array ERat) (zs : List Bool) {v : Nat} (hv : V.size ≤ v)
    (hv' : v < V.size + zs.length) : ∃ z : Bool, (pushBools V zs).getD v Scalar.zero = ofBool z := by
  induction zs generalizing V with
  | nil => simp at hv'; omega
  | cons z zs ih =>
    rw [pushBools_cons]
    rcases Nat.eq_or_lt_of_le hv with rfl | hlt
    · refine ⟨z, ?_⟩
      rw [← (agreeOn_pushBools (V.push (ofBool z)) zs) V.size (by simp), getD_push_size]
    · exact ih _ (by simpa using hlt) (by simp at hv' ⊢; omega)

namespace Builder.AddsBinaries

variable {b b' : Builder ERat} {j k : Nat} {W : Array ERat}

/-- A point of a model grown by at most `k` binaries, cut to the columns of `b` and followed by
the `k` bits it reads, agrees with it on the grown model, so it satisfies the rows added. -/
theorem addedRowsAdmit_pushBits (h : b.AddsBinaries b' j) (hjk : j ≤ k)
    (hrows : ∀ r ∈ b'.model.rows.toList, r.OnColumns b'.model.columns.size)
    (hW : b'.model.Point W) :
    Lowering.AddedRowsAdmit b b' (pushBits (firstValues W b.model.columns.size) W k) := by
  have hV : AgreeOn (firstValues W b.model.columns.size).size (firstValues W b.model.columns.size) W := by
    rw [size_firstValues]
    exact agreeOn_firstValues W _
  have hU : AgreeOn b'.model.columns.size (pushBits (firstValues W b.model.columns.size) W k) W :=
    agreeOn_pushBits hV k _ (by rw [h.size, size_firstValues]; omega)
      fun v hv hv' => h.bits hW v (by simpa using hv) hv'
  intro R hR
  have hR' := List.mem_of_mem_drop hR
  exact (Row.admits_congr (hrows R hR') hU).2 (hW.rows R hR')

/-- Bits pushed after a point of `b`, at least as many as the binaries added, are values that the
new columns take. -/
theorem fits_pushBools (h : b.AddsBinaries b' j) (hsize : W.size = b.model.columns.size)
    {zs : List Bool} (hj : j ≤ zs.length) :
    ∀ v c, b.model.columns.size ≤ v → b'.model.columns[v]? = some c →
      ∃ x, (pushBools W zs).getD v Scalar.zero = fin x ∧ c.Fits x :=
  h.fits fun v hv hv' => getD_pushBools_bit W zs (by omega) (by rw [h.size] at hv'; omega)

end Builder.AddsBinaries

/-! ### Integer models -/

/-- The data of a kind are those of an integer model: integers (`Kind.OverIntegers`), a value list
strictly increasing from the lower to the upper bound of its variable, and flow demands with
nonnegative upper bounds. -/
def Kind.IntegerData (k : Kind ERat) : Prop :=
  k.OverIntegers ∧
    (∀ l u D, k = .intVar l u (some D) →
      D.Pairwise (· < ·) ∧ D.head? = some l ∧ D.getLast? = some u) ∧
    ∀ kind vars values lb ub, k = .flow kind vars values lb ub →
      ∀ d ∈ values.zip (lb.zip ub), 0 ≤ d.2.2

/-- A condition is encoded as posted rows or, when it is a relation, logic or pair node, as an
indicator column. -/
def Node.ConditionShape (n : Node ERat) : Prop :=
  n.kind.isCondition = true → ∀ e, n.encoding = some e →
    e = .posted ∨ n.kind.isBinop = true ∧ ∃ v, e = .column v

theorem Node.conditionShape_of_none {n : Node ERat} (h : n.encoding = none) : n.ConditionShape :=
  fun _ e he => by rw [h] at he; cases he

theorem Node.conditionShape_set {n : Node ERat} {e : Encoding}
    (h : n.kind.isCondition = true → e = .posted ∨ n.kind.isBinop = true ∧ ∃ v, e = .column v) :
    { n with encoding := some e }.ConditionShape := by
  intro hc e' he'
  cases he'
  exact h hc

/-- The indicator of a relation, logic or pair node: a binary column with upper bound `1` and
lower bound `0`, or `1` once the node is asserted. -/
def Column.IsIndicator (c : Column ERat) : Prop :=
  c.kind = .binary ∧ (c.lower = Scalar.zero ∨ c.lower = Scalar.one) ∧ c.upper = Scalar.one

/-- Every relation, logic or pair node encoded by a column has its indicator there. -/
def Builder.IndicatorColumns (b : Builder ERat) : Prop :=
  ∀ (j : Nat) (n : Node ERat) (v : Nat), b.nodes[j]? = some n → n.kind.isBinop = true →
    n.encoding = some (.column v) → ∃ c, b.model.columns[v]? = some c ∧ c.IsIndicator

/-- What a builder of an integer model keeps while it lowers: it is sound, has the default
configuration, integer data at every node, every node carries the bounds it derives, every
condition is encoded as posted rows or an indicator, and every indicator is a binary column. -/
structure Builder.Lowerable (b : Builder ERat) : Prop where
  sound : b.Sound
  config : b.config = LoweringConfig.default
  integer : ∀ (j : Nat) (n : Node ERat), b.nodes[j]? = some n → n.kind.IntegerData
  derived : b.BoundsDerived []
  shapes : ∀ (j : Nat) (n : Node ERat), b.nodes[j]? = some n → n.ConditionShape
  indicators : b.IndicatorColumns

theorem Kind.integerData_reading (x : Nat) : (Builder.readingNode x : Node ERat).kind.IntegerData := by
  refine ⟨⟨0, by simp [zero_eq_fin]⟩, fun l u D h => ?_,
    fun kind vars values lb ub h => ?_⟩ <;> simp [Builder.readingNode] at h

/-- Recording an encoding of the shape a condition needs keeps every condition so shaped. -/
theorem Builder.shapes_encodeAs {b : Builder ERat} {id : Nat} {e : Encoding}
    (h : ∀ (j : Nat) (n : Node ERat), b.nodes[j]? = some n → n.ConditionShape)
    (he : ∀ n, b.nodes[id]? = some n → n.kind.isCondition = true →
      e = .posted ∨ n.kind.isBinop = true ∧ ∃ v, e = .column v) :
    ∀ (j : Nat) (n : Node ERat), (b.encodeAs id e).nodes[j]? = some n → n.ConditionShape := by
  intro j m hm
  by_cases hj : j = id
  · subst hj
    cases hn : b.nodes[j]? with
    | none => simp [Builder.encodeAs, Array.getElem?_modify, hn] at hm
    | some n =>
      rw [Builder.getElem?_encodeAs_self hn, Option.some.injEq] at hm
      subst hm
      exact Node.conditionShape_set (he n hn)
  · rw [Builder.getElem?_encodeAs_of_ne hj] at hm
    exact h j m hm

namespace Builder.IndicatorColumns

variable {b b' : Builder ERat}

/-- A step that keeps the arena and every column keeps the indicators. -/
theorem of_nodes (h : b.IndicatorColumns) (hnodes : b'.nodes = b.nodes)
    (hcols : ∀ (v : Nat) (c : Column ERat), b.model.columns[v]? = some c →
      b'.model.columns[v]? = some c) :
    b'.IndicatorColumns := by
  intro j n v hn hb he
  obtain ⟨c, hc, hi⟩ := h j n v (hnodes ▸ hn) hb he
  exact ⟨c, hcols v c hc, hi⟩

/-- Pushing a node without encoding. -/
theorem push (h : b.IndicatorColumns) {n : Node ERat} (hn : n.encoding = none) :
    (b.pushNode n).2.IndicatorColumns := by
  intro j m v hm hb he
  simp only [Builder.pushNode, Array.getElem?_push] at hm
  split_ifs at hm
  · cases hm
    rw [hn] at he
    cases he
  · exact h j m v hm hb he

/-- Recording for node `id` an encoding that is an indicator whenever the node is a relation,
logic or pair node encoded by a column. -/
theorem encodeAs (h : b.IndicatorColumns) {id : Nat} {e : Encoding}
    (he : ∀ n v, b.nodes[id]? = some n → n.kind.isBinop = true → e = .column v →
      ∃ c, b.model.columns[v]? = some c ∧ c.IsIndicator) :
    (b.encodeAs id e).IndicatorColumns := by
  intro j m v hm hb hv
  by_cases hj : j = id
  · subst hj
    cases hn : b.nodes[j]? with
    | none => simp [Builder.encodeAs, Array.getElem?_modify, hn] at hm
    | some n =>
      rw [getElem?_encodeAs_self hn, Option.some.injEq] at hm
      subst hm
      cases hv
      exact he n v hn hb rfl
  · rw [getElem?_encodeAs_of_ne hj] at hm
    exact h j m v hm hb hv

end Builder.IndicatorColumns

/-- A column among the binaries a step adds is an indicator. -/
theorem Builder.AddsBinaries.indicator {b b' : Builder ERat} {k v : Nat} (h : b.AddsBinaries b' k)
    (hv : b.model.columns.size ≤ v) (hlt : v < b'.model.columns.size) :
    ∃ c, b'.model.columns[v]? = some c ∧ c.IsIndicator := by
  obtain ⟨hkind, hlo, hhi⟩ := h.new_column hv (Array.getElem?_eq_getElem hlt)
  exact ⟨_, Array.getElem?_eq_getElem hlt, hkind, .inl hlo, hhi⟩

namespace Builder.Lowerable

variable {b b' : Builder ERat}

/-- A step that keeps the nodes, grows the builder and leaves it sound, with its conditions
shaped and its indicators binary, keeps it lowerable. -/
theorem of_step (h : b.Lowerable) (hk : b.KeepsNodes b') (hg : b.Grows b') (hs : b'.Sound)
    (hshapes : ∀ (j : Nat) (n : Node ERat), b'.nodes[j]? = some n → n.ConditionShape)
    (hind : b'.IndicatorColumns) : b'.Lowerable := by
  refine ⟨hs, hg.config.trans h.config, fun j n hn => ?_, h.derived.of_keepsNodes hk, hshapes,
    hind⟩
  by_cases hj : b.nodes.size ≤ j
  · obtain ⟨x, e, rfl⟩ := hk.new j n hj hn
    exact Kind.integerData_reading x
  · have hm := Array.getElem?_eq_getElem (Nat.lt_of_not_le hj)
    obtain ⟨e, he⟩ := hk.old j _ hm
    rw [hn, Option.some.injEq] at he
    subst he
    have hint := h.integer j _ hm
    exact hint

theorem epsilon (h : b.Lowerable) : b.config.epsilon = .fin 1e-6 := by
  rw [h.config]
  rfl

/-- Every view and affine sum has an integer, hence finite, scale and offset. -/
theorem finiteScales (h : b.Lowerable) : FiniteScales b.nodes := by
  intro j n hn
  have hint := (h.integer j n hn).1
  cases hx : n.expansion with
  | view base scale offset =>
    obtain ⟨sh, hk⟩ := Node.expansion_view hx
    rw [hk] at hint
    obtain ⟨zs, zo, rfl, rfl⟩ := hint
    exact ⟨⟨_, rfl⟩, _, rfl⟩
  | sum terms offset =>
    obtain ⟨vars, weights, hk, -⟩ := Node.expansion_sum hx
    rw [hk] at hint
    obtain ⟨z, rfl⟩ := hint
    exact ⟨_, rfl⟩
  | _ => trivial

theorem valuesNodup (h : b.Lowerable) : b.ValuesNodup := by
  intro j n vs hn hvs
  obtain ⟨k, lo, hi, c, enc⟩ := n
  cases k with
  | intVar l u D =>
    cases hvs
    exact ((h.integer j _ hn).2.1 l u vs rfl).1.nodup
  | _ => cases hvs

end Builder.Lowerable

/-! ### No integer in the gap of a relation -/

namespace Rel

variable {t r s : ℚ}

/-- With a separation of at most `1`, no relation between values an integer apart has them in
its gap. -/
theorem not_inGap_of_int (hs1 : s ≤ 1) {z : ℤ} (hz : t - r = z) (rel : Rel) :
    ¬rel.InGap t r s := by
  -- an integer strictly between `0` and `1`, or `-1` and `0`, does not exist
  have hpos : ¬((0 : ℚ) < z ∧ (z : ℚ) < 1) := by
    rintro ⟨h₀, h₁⟩
    have : (0 : ℤ) < z := by exact_mod_cast h₀
    have : z < (1 : ℤ) := by exact_mod_cast h₁
    omega
  have hneg : ¬((-1 : ℚ) < z ∧ (z : ℚ) < 0) := by
    rintro ⟨h₀, h₁⟩
    have : (-1 : ℤ) < z := by exact_mod_cast h₀
    have : z < (0 : ℤ) := by exact_mod_cast h₁
    omega
  have hup : ¬(r < t ∧ t < r + s) := by
    rintro ⟨h₀, h₁⟩
    exact hpos ⟨by linarith, by linarith⟩
  have hdown : ¬(r - s < t ∧ t < r) := by
    rintro ⟨h₀, h₁⟩
    exact hneg ⟨by linarith, by linarith⟩
  cases rel with
  | le | gt => exact hup
  | lt | ge => exact hdown
  | eq | ne => exact fun h => h.elim hdown hup

/-- With a separation in `(0, 1]`, the top-level form of a relation between values an integer
apart is the relation itself. -/
theorem strict_iff_holds_of_int (hs : 0 < s) (hs1 : s ≤ 1) {z : ℤ} (hz : t - r = z) (rel : Rel) :
    rel.Strict t r s ↔ rel.Holds t r := by
  rw [strict_iff hs]
  exact and_iff_left (not_inGap_of_int hs1 hz rel)

/-- A relation is unchanged by a shift of both sides. -/
theorem holds_add_right (rel : Rel) (t r c : ℚ) : rel.Holds (t + c) (r + c) ↔ rel.Holds t r := by
  cases rel <;> simp [Holds]

end Rel

/-- The separation of a fragment lies in `(0, 1]` under the default epsilon. -/
theorem separationOf_mem (b : Builder ERat) (expr : Row ERat) :
    0 < Lowering.separationOf b expr 1e-6 ∧ Lowering.separationOf b expr 1e-6 ≤ 1 := by
  unfold Lowering.separationOf
  split <;> norm_num

end MipLowering
