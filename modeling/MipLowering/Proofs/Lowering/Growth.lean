import MipLowering.Lowering.Encode

/-!
# Growth of a builder during an add

The walk of an add only appends: nodes, columns, rows and readings go to the end of their
lists, and the only entries it changes are the encodings of nodes that were not encoded when the
add began, each recorded in the builder's list of encoded nodes. The objective may be set.
`Builder.Grows b b'` says that `b'` is such an extension of `b`; it is a preorder, and a rollback
of `b'` to the checkpoint of `b` gives `b` back, as soon as the readings of `b` point below its
arena.

## Main definitions

* `MipLowering.Builder.encodedSince` — the nodes encoded after a given builder.
* `MipLowering.Builder.Grows` — one builder extends another by the work of an add.
* `MipLowering.Builder.withColumnOn`, `MipLowering.Builder.revisit` — a column forced on, and
  the builder after a walk meets an encoded node.

## Main results

* `MipLowering.Builder.Grows.refl`, `MipLowering.Builder.Grows.trans`.
* `MipLowering.Builder.Grows.encoding_eq` — an encoding, once set, is kept.
* `MipLowering.Builder.rollback_checkpoint` — a rollback undoes a growth.
* The growth lemmas of the builder updates a walk makes (`Grows.pushNode`, `Grows.setEncoding`,
  `Grows.addColumn`, `Grows.addRow`, `Grows.modifyColumn`, `Grows.setObjective`,
  `Grows.addReading`).
-/

namespace MipLowering

namespace Builder

variable {α : Type}

/-- The nodes encoded since `b`, in order. -/
def encodedSince (b b' : Builder α) : List Nat := b'.encoded.drop b.encoded.length

/-- `b'` extends `b` by the work of an add: the same configuration, arrays, flag and decisions;
the columns, rows and encoded nodes of `b` as prefixes; the nodes of `b` unchanged but for
encodings given since `b` to nodes that had none; and new readings through new nodes. -/
structure Grows (b b' : Builder α) : Prop where
  config : b'.config = b.config
  intArrays : b'.intArrays = b.intArrays
  varArrays : b'.varArrays = b.varArrays
  initialised : b'.initialised = b.initialised
  decisions : b'.model.decisions = b.model.decisions
  columns : b.model.columns.toList <+: b'.model.columns.toList
  rows : b.model.rows.toList <+: b'.model.rows.toList
  encoded : b.encoded <+: b'.encoded
  fresh : ∀ i ∈ b.encodedSince b', ∀ n, b.nodes[i]? = some n → n.encoding = none
  nodes : ∀ i n, b.nodes[i]? = some n →
    ∃ e, b'.nodes[i]? = some { n with encoding := e } ∧ (e = n.encoding ∨ i ∈ b.encodedSince b')
  readings : ∃ new, b'.readings = new ++ b.readings ∧
    ∀ p ∈ new, b.nodes.size ≤ p.2 ∧ p.2 < b'.nodes.size

/-- The builder with the lower bound of column `v` raised to at least `1`, as a top-level add
of a relation first met nested does. -/
def withColumnOn [Scalar α] (b : Builder α) (v : Nat) : Builder α :=
  { b with model := b.model.modifyColumn v fun c => { c with lower := Scalar.max c.lower Scalar.one } }

/-- The builder after a walk meets a node of kind `k` already encoded as `e`: at top level, a
relation, logic or pair node with an indicator column has that column forced on; otherwise the
builder is left as it is. -/
def revisit [Scalar α] (b : Builder α) (top : Bool) (k : Kind α) : Encoding → Builder α
  | .column v => if top && k.isBinop then b.withColumnOn v else b
  | _ => b

section Revisit

variable [Scalar α] {b : Builder α} {top : Bool} {k : Kind α} {e : Encoding}

@[simp] theorem revisit_nodes : (b.revisit top k e).nodes = b.nodes := by
  cases e with
  | column v => simp only [revisit]; split <;> rfl
  | _ => rfl

@[simp] theorem revisit_readings : (b.revisit top k e).readings = b.readings := by
  cases e with
  | column v => simp only [revisit]; split <;> rfl
  | _ => rfl

@[simp] theorem revisit_encoded : (b.revisit top k e).encoded = b.encoded := by
  cases e with
  | column v => simp only [revisit]; split <;> rfl
  | _ => rfl

@[simp] theorem revisit_initialised : (b.revisit top k e).initialised = b.initialised := by
  cases e with
  | column v => simp only [revisit]; split <;> rfl
  | _ => rfl

/-- A nested walk leaves an encoded node as it is. -/
@[simp] theorem revisit_false : b.revisit false k e = b := by
  cases e <;> rfl

end Revisit

/-- A node is not encoded in `b` (or lies beyond its arena). -/
def Unencoded (b : Builder α) (id : Nat) : Prop := ∀ n, b.nodes[id]? = some n → n.encoding = none

theorem encodedSince_self (b : Builder α) : b.encodedSince b = [] := by
  simp [encodedSince]

theorem encodedSince_trans {b b' b'' : Builder α} (h : b.encoded <+: b'.encoded)
    (h' : b'.encoded <+: b''.encoded) :
    b.encodedSince b'' = b.encodedSince b' ++ b'.encodedSince b'' := by
  obtain ⟨t, ht⟩ := h
  obtain ⟨t', ht'⟩ := h'
  simp [encodedSince, ← ht', ← ht, List.drop_append]

theorem encodedSince_append {b₀ b b' : Builder α} (h : b₀.encoded <+: b.encoded) {l : List Nat}
    (hb' : b'.encoded = b.encoded ++ l) : b₀.encodedSince b' = b₀.encodedSince b ++ l := by
  obtain ⟨t, ht⟩ := h
  simp [encodedSince, hb', ← ht]

namespace Grows

theorem refl (b : Builder α) : Grows b b where
  config := rfl
  intArrays := rfl
  varArrays := rfl
  initialised := rfl
  decisions := rfl
  columns := List.prefix_refl _
  rows := List.prefix_refl _
  encoded := List.prefix_refl _
  fresh := by simp [encodedSince_self]
  nodes := fun i n h => ⟨n.encoding, by simpa using h, .inl rfl⟩
  readings := ⟨[], by simp⟩

variable {b b' b'' : Builder α}

theorem nodes_size_le (h : Grows b b') : b.nodes.size ≤ b'.nodes.size := by
  rcases Nat.eq_zero_or_pos b.nodes.size with h0 | hpos
  · omega
  · obtain ⟨e, he, -⟩ := h.nodes (b.nodes.size - 1) _
      (Array.getElem?_eq_getElem (by omega))
    have := (Array.getElem?_eq_some_iff.mp he).1
    omega

/-- An encoding that is set stays as it is. -/
theorem encoding_eq (h : Grows b b') {i : Nat} {n : Node α} (hn : b.nodes[i]? = some n)
    {e : Encoding} (he : n.encoding = some e) :
    ∃ n', b'.nodes[i]? = some n' ∧ n'.encoding = some e := by
  obtain ⟨e', he', hor⟩ := h.nodes i n hn
  refine ⟨_, he', ?_⟩
  rcases hor with rfl | hi
  · exact he
  · rw [h.fresh i hi n hn] at he
    cases he

/-- A node without encoding in a grown builder had none at the start. -/
theorem unencoded_of (h : Grows b b') {id : Nat} {n : Node α} (hn : b'.nodes[id]? = some n)
    (hnone : n.encoding = none) : Unencoded b id := by
  intro n₀ hn₀
  obtain ⟨e, he, hor⟩ := h.nodes id n₀ hn₀
  rw [hn, Option.some.injEq] at he
  rcases hor with rfl | hi
  · rw [← hnone, he]
  · exact h.fresh id hi n₀ hn₀

theorem trans (h : Grows b b') (h' : Grows b' b'') : Grows b b'' where
  config := h'.config.trans h.config
  intArrays := h'.intArrays.trans h.intArrays
  varArrays := h'.varArrays.trans h.varArrays
  initialised := h'.initialised.trans h.initialised
  decisions := h'.decisions.trans h.decisions
  columns := h.columns.trans h'.columns
  rows := h.rows.trans h'.rows
  encoded := h.encoded.trans h'.encoded
  fresh := by
    intro i hi n hn
    rw [encodedSince_trans h.encoded h'.encoded, List.mem_append] at hi
    rcases hi with hi | hi
    · exact h.fresh i hi n hn
    · obtain ⟨e, he, hor⟩ := h.nodes i n hn
      have hnone := h'.fresh i hi _ he
      simp only at hnone
      rcases hor with rfl | hi'
      · exact hnone
      · exact h.fresh i hi' n hn
  nodes := by
    intro i n hn
    obtain ⟨e, he, hor⟩ := h.nodes i n hn
    obtain ⟨e', he', hor'⟩ := h'.nodes i _ he
    refine ⟨e', by simpa using he', ?_⟩
    rw [encodedSince_trans h.encoded h'.encoded, List.mem_append]
    simp only at hor'
    rcases hor' with rfl | hi'
    · rcases hor with rfl | hi
      · exact .inl rfl
      · exact .inr (.inl hi)
    · exact .inr (.inr hi')
  readings := by
    obtain ⟨new, hnew, hp⟩ := h.readings
    obtain ⟨new', hnew', hp'⟩ := h'.readings
    have hs := h.nodes_size_le
    have hs' := h'.nodes_size_le
    refine ⟨new' ++ new, by rw [hnew', hnew, List.append_assoc], ?_⟩
    intro p hmem
    rcases List.mem_append.mp hmem with hm | hm
    · have := hp' p hm
      omega
    · have := hp p hm
      omega

end Grows

/-! ### The updates of a walk -/

namespace Grows

variable {b₀ b : Builder α}

/-- Appending a node. -/
theorem pushNode (h : Grows b₀ b) (n : Node α) : Grows b₀ (b.pushNode n).2 := by
  refine h.trans ⟨rfl, rfl, rfl, rfl, rfl, List.prefix_refl _, List.prefix_refl _,
    List.prefix_refl _, by simp [encodedSince, Builder.pushNode], ?_,
    ⟨[], by simp [Builder.pushNode]⟩⟩
  intro i m hm
  refine ⟨m.encoding, ?_, .inl rfl⟩
  simp only [Builder.pushNode, Array.getElem?_push]
  rw [if_neg (by have := (Array.getElem?_eq_some_iff.mp hm).1; omega)]
  simpa using hm

/-- Changing the flat model in a way that keeps the columns and rows as prefixes. -/
theorem modelExtend (h : Grows b₀ b) (m : FlatModel α)
    (hc : b.model.columns.toList <+: m.columns.toList) (hr : b.model.rows.toList <+: m.rows.toList)
    (hd : m.decisions = b.model.decisions) : Grows b₀ { b with model := m } :=
  h.trans ⟨rfl, rfl, rfl, rfl, hd, hc, hr, List.prefix_refl _, by simp [encodedSince],
    fun i n hn => ⟨n.encoding, by simpa using hn, .inl rfl⟩, ⟨[], by simp⟩⟩

/-- Appending a column. -/
theorem addColumn [Scalar α] (h : Grows b₀ b) (name : String) (kind : ColumnKind) (lower upper : α) :
    Grows b₀ { b with model := (b.model.addColumn name kind lower upper).2 } :=
  h.modelExtend _ (by simp [FlatModel.addColumn]) (by simp [FlatModel.addColumn])
    (by simp [FlatModel.addColumn])

/-- Appending a row. -/
theorem addRow [Scalar α] (h : Grows b₀ b) (r : Row α) : Grows b₀ { b with model := b.model.addRow r } :=
  h.modelExtend _ (by simp [FlatModel.addRow]) (by simp [FlatModel.addRow])
    (by simp [FlatModel.addRow])

/-- Setting the objective. -/
theorem setObjective (h : Grows b₀ b) (o : Option Objective) :
    Grows b₀ { b with model := { b.model with objective := o } } :=
  h.modelExtend _ (List.prefix_refl _) (List.prefix_refl _) rfl

/-- Changing a column that the walk added. -/
theorem modifyColumn (h : Grows b₀ b) {v : Nat} (hv : b₀.model.columns.size ≤ v)
    (f : Column α → Column α) : Grows b₀ { b with model := b.model.modifyColumn v f } :=
  { h with
    columns := by
      have hc := List.prefix_iff_getElem?.mp h.columns
      refine List.prefix_iff_getElem?.mpr fun i hi => ?_
      have hne : v ≠ i := by
        simp only [Array.length_toList] at hi
        omega
      simp only [FlatModel.modifyColumn, Array.toList_modify, List.getElem?_modify_ne _ _ hne]
      exact hc i hi }

/-- Recording the encoding of a node that had none when the walk began. -/
theorem setEncoding (h : Grows b₀ b) {id : Nat} (hid : Unencoded b₀ id) (e : Encoding) :
    Grows b₀ { b with nodes := b.nodes.modify id (fun n => { n with encoding := some e }),
                      encoded := b.encoded ++ [id] } :=
  have hsince : b₀.encodedSince { b with
      nodes := b.nodes.modify id (fun n => { n with encoding := some e })
      encoded := b.encoded ++ [id] } = b₀.encodedSince b ++ [id] :=
    encodedSince_append h.encoded rfl
  { h with
    encoded := h.encoded.trans (List.prefix_append _ _)
    fresh := by
      intro i hi n hn
      rw [hsince, List.mem_append, List.mem_singleton] at hi
      rcases hi with hi | rfl
      · exact h.fresh i hi n hn
      · exact hid n hn
    nodes := by
      intro i n hn
      obtain ⟨e', he', hor⟩ := h.nodes i n hn
      rw [hsince]
      simp only [Array.getElem?_modify, he']
      by_cases hi : id = i
      · subst hi
        exact ⟨some e, by simp, .inr (by simp)⟩
      · simp only [hi, if_false]
        refine ⟨e', rfl, ?_⟩
        rcases hor with hor | hor
        · exact .inl hor
        · exact .inr (List.mem_append_left _ hor)
    readings := by
      obtain ⟨new, hnew, hp⟩ := h.readings
      exact ⟨new, hnew, by simpa using hp⟩ }

/-- Caching the reading of an operand through a node that the walk added. -/
theorem addReading (h : Grows b₀ b) {x ne : Nat} (hfresh : b₀.nodes.size ≤ ne)
    (hne : ne < b.nodes.size) : Grows b₀ { b with readings := (x, ne) :: b.readings } :=
  { h with
    readings := by
      obtain ⟨new, hnew, hp⟩ := h.readings
      refine ⟨(x, ne) :: new, by simp [hnew], ?_⟩
      intro p hmem
      rcases List.mem_cons.mp hmem with rfl | hm
      · exact ⟨hfresh, hne⟩
      · exact hp p hm }

end Grows

/-- Resetting the encodings of a list of nodes touches exactly the listed nodes. -/
private theorem getElem?_resetEncodings (ids : List Nat) (ns : Array (Node α)) (i : Nat) :
    (ids.foldl (fun ns id => ns.modify id fun n => { n with encoding := none }) ns)[i]? =
      if i ∈ ids then ns[i]?.map (fun n => { n with encoding := none }) else ns[i]? := by
  induction ids generalizing ns with
  | nil => simp
  | cons id rest ih =>
    rw [List.foldl_cons, ih, Array.getElem?_modify]
    by_cases hr : i ∈ rest
    · by_cases hi : id = i <;> simp [hr, hi, Option.map_map, Function.comp_def]
    · by_cases hi : id = i
      · subst hi
        simp [hr]
      · simp [hr, hi, Ne.symm hi]

private theorem size_resetEncodings (ids : List Nat) (ns : Array (Node α)) :
    (ids.foldl (fun ns id => ns.modify id fun n => { n with encoding := none }) ns).size =
      ns.size := by
  induction ids generalizing ns with
  | nil => rfl
  | cons id rest ih => rw [List.foldl_cons, ih, Array.size_modify]

/-- Rolling a builder that grew from `b` back to the checkpoint of `b` gives `b`, when the
readings of `b` point below its arena. -/
theorem rollback_checkpoint [Scalar α] {b b' : Builder α} (h : Grows b b')
    (hr : ∀ p ∈ b.readings, p.2 < b.nodes.size) : b'.rollback b.checkpoint = b := by
  have hsize := h.nodes_size_le
  obtain ⟨new, hnew, hp⟩ := h.readings
  have hnodes : ((b'.encoded.drop b.encoded.length).foldl
      (fun ns id => ns.modify id fun n => { n with encoding := none }) b'.nodes).take
      b.nodes.size = b.nodes := by
    apply Array.ext_getElem?
    intro i
    rw [Array.take_eq_extract, Array.getElem?_extract, size_resetEncodings,
      getElem?_resetEncodings]
    by_cases hi : i < b.nodes.size
    · obtain ⟨n, hn⟩ := Option.isSome_iff_exists.mp (by simpa using hi : b.nodes[i]?.isSome)
      obtain ⟨e, he, hor⟩ := h.nodes i n hn
      rw [if_pos (by omega), Nat.zero_add, he, hn]
      by_cases hmem : i ∈ b'.encoded.drop b.encoded.length
      · rw [if_pos hmem]
        have hnone : n.encoding = none := h.fresh i hmem n hn
        simp [← hnone]
      · rw [if_neg hmem]
        rcases hor with rfl | hi'
        · rfl
        · exact absurd hi' hmem
    · rw [if_neg (by omega)]
      exact (Array.getElem?_eq_none (by omega)).symm
  have hreadings : b'.readings.filter (·.2 < b.checkpoint.nodes) = b.readings := by
    show b'.readings.filter (·.2 < b.nodes.size) = b.readings
    rw [hnew, List.filter_append, List.filter_eq_nil_iff.mpr, List.filter_eq_self.mpr,
      List.nil_append]
    · intro p hp'
      simpa using hr p hp'
    · intro p hp'
      have := (hp p hp').1
      simp only [decide_eq_true_eq]
      omega
  have hmodel : b'.model.truncate b.model.columns.size b.model.rows.size b.model.objective =
      b.model := by
    have hc := List.prefix_iff_eq_take.mp h.columns
    have hr := List.prefix_iff_eq_take.mp h.rows
    have hd := h.decisions
    rcases hm : b.model with ⟨cols, rows, obj, dec⟩
    rcases hm' : b'.model with ⟨cols', rows', obj', dec'⟩
    rw [hm, hm'] at hc hr hd
    simp only [FlatModel.truncate, FlatModel.mk.injEq] at *
    refine ⟨?_, ?_, trivial, hd⟩
    · apply Array.toList_inj.mp
      rw [Array.toList_extract, hc]
      simp
    · apply Array.toList_inj.mp
      rw [Array.toList_extract, hr]
      simp
  have henc : b'.encoded.take b.encoded.length = b.encoded :=
    (List.prefix_iff_eq_take.mp h.encoded).symm
  rw [rollback, hreadings]
  simp only [checkpoint, hnodes, henc, hmodel]
  rw [h.config, h.intArrays, h.varArrays, h.initialised]

end Builder

end MipLowering
