import MipLowering.Proofs.Lowering.Requests
import MipLowering.Proofs.Lowering.ExactRows

/-!
# Sound builders

A builder is *sound* when its arena and its flat model refer only to what is there: every
operand of a node precedes it, every column that a node is encoded as and every column that a
row, the objective or a decision names is a column of the model, the operands of an encoded node
are encoded, the decision columns have no repeats, and every cached reading `x ↦ r` names an
encoded node `r` of kind `x ≠ 0`.

Every step of a lowering keeps a builder sound when it succeeds. `Lowering.Sustains P x Q` says
so of a step `x` run from a builder with `P`, ending with `Q` of its value; it also says that the
step extends the builder (`Builder.Extends`): nodes keep their kinds, an encoded node stays
encoded and the columns only grow. A fact that every extension keeps (`Builder.Stable`) is
carried through a step by `Lowering.Sustains.frame`.

## Main definitions

* `MipLowering.Row.OnColumns` — every term of a row is on an existing column.
* `MipLowering.Builder.Sound`, `MipLowering.Builder.Extends`, `MipLowering.Builder.Stable`.
* `MipLowering.Lowering.Sustains` — a step that keeps builders sound.

## Main results

* The soundness of the builder updates a walk makes (`Builder.Sound.pushNode`,
  `Builder.Sound.setEncoding`, `Builder.Sound.addRow`, …).
* The rules of `Sustains`: `bind`, `frame`, `foldlM`, `forM`, and the primitive steps.
* `MipLowering.Row.addNode_onColumns` — folding encoded nodes into a row adds terms on columns.
-/

namespace MipLowering

namespace Row

variable {α : Type} {r : Row α} {n : Nat}

/-- Every term of the row is on one of the first `n` columns. -/
def OnColumns (r : Row α) (n : Nat) : Prop := ∀ t ∈ r.terms, t.1 < n

theorem OnColumns.mono (h : r.OnColumns n) {m : Nat} (hnm : n ≤ m) : r.OnColumns m :=
  fun t ht => Nat.lt_of_lt_of_le (h t ht) hnm

theorem onColumns_empty (lhs rhs : α) (n : Nat) : (Row.empty lhs rhs).OnColumns n :=
  fun _ ht => absurd ht List.not_mem_nil

theorem OnColumns.addConstant [Scalar α] (h : r.OnColumns n) (k : α) : (r.addConstant k).OnColumns n := h

theorem OnColumns.withBounds (h : r.OnColumns n) (lhs rhs : α) :
    (r.withBounds lhs rhs).OnColumns n := h

theorem OnColumns.addVar [Scalar α] (h : r.OnColumns n) {v : Nat} (hv : v < n) (c : α) :
    (r.addVar v c).OnColumns n := fun t ht => by
  rcases mem_addVar ht with heq | ⟨t', ht', heq⟩
  · rw [heq]
    exact hv
  · rw [← heq]
    exact h t' ht'

end Row

/-- A node encoded as a column is encoded on one of the first `n` columns. -/
def Encoding.OnColumns (e : Encoding) (n : Nat) : Prop := ∀ v, e = .column v → v < n

theorem Encoding.OnColumns.column {v n : Nat} (h : v < n) : (Encoding.column v).OnColumns n := by
  intro w hw
  cases hw
  exact h

@[simp] theorem Encoding.onColumns_posted (n : Nat) : Encoding.posted.OnColumns n := by
  intro _ h
  cases h

@[simp] theorem Encoding.onColumns_affine (n : Nat) : Encoding.affine.OnColumns n := by
  intro _ h
  cases h

namespace Builder

variable {α : Type}

/-- Node `c` of the arena has an encoding. -/
def Encoded (b : Builder α) (c : Nat) : Prop :=
  ∃ m : Node α, b.nodes[c]? = some m ∧ m.encoding.isSome

/-- Node `id` is in the arena and its operands are encoded. -/
def OperandsEncoded (b : Builder α) (id : Nat) : Prop :=
  ∃ n : Node α, b.nodes[id]? = some n ∧ ∀ c ∈ n.kind.children, b.Encoded c

/-- `b'` extends `b`: every node is kept with its kind, an encoded node stays encoded, and the
columns only grow. -/
structure Extends (b b' : Builder α) : Prop where
  nodes : ∀ (i : Nat) (n : Node α), b.nodes[i]? = some n →
    ∃ n' : Node α, b'.nodes[i]? = some n' ∧ n'.kind = n.kind ∧
      (n.encoding.isSome → n'.encoding.isSome)
  columns : b.model.columns.size ≤ b'.model.columns.size

/-- A fact about builders that every extension keeps. -/
def Stable (R : Builder α → Prop) : Prop := ∀ b b', b.Extends b' → R b → R b'

variable {b b' b'' : Builder α}

namespace Extends

theorem refl (b : Builder α) : b.Extends b := ⟨fun _ n hn => ⟨n, hn, rfl, id⟩, le_rfl⟩

theorem trans (h : b.Extends b') (h' : b'.Extends b'') : b.Extends b'' := by
  refine ⟨fun i n hn => ?_, h.columns.trans h'.columns⟩
  obtain ⟨n', hn', hk, he⟩ := h.nodes i n hn
  obtain ⟨n'', hn'', hk', he'⟩ := h'.nodes i n' hn'
  exact ⟨n'', hn'', hk'.trans hk, fun hs => he' (he hs)⟩

theorem encoded (h : b.Extends b') {c : Nat} (hc : b.Encoded c) : b'.Encoded c := by
  obtain ⟨m, hm, hs⟩ := hc
  obtain ⟨m', hm', -, he⟩ := h.nodes c m hm
  exact ⟨m', hm', he hs⟩

theorem kind (h : b.Extends b') {i : Nat} {k : Kind α}
    (hk : ∃ m : Node α, b.nodes[i]? = some m ∧ m.kind = k) :
    ∃ m : Node α, b'.nodes[i]? = some m ∧ m.kind = k := by
  obtain ⟨m, hm, rfl⟩ := hk
  obtain ⟨m', hm', hk', -⟩ := h.nodes i m hm
  exact ⟨m', hm', hk'⟩

end Extends

namespace Stable

theorem and {R S : Builder α → Prop} (hR : Stable R) (hS : Stable S) :
    Stable fun b => R b ∧ S b :=
  fun b b' h hb => ⟨hR b b' h hb.1, hS b b' h hb.2⟩

theorem lt_columns (v : Nat) : Stable fun b : Builder α => v < b.model.columns.size :=
  fun _ _ h hv => Nat.lt_of_lt_of_le hv h.columns

theorem onColumns (r : Row α) : Stable fun b : Builder α => r.OnColumns b.model.columns.size :=
  fun _ _ h hr => hr.mono h.columns

theorem encoded (c : Nat) : Stable fun b : Builder α => b.Encoded c :=
  fun _ _ h hc => h.encoded hc

theorem kind (i : Nat) (k : Kind α) :
    Stable fun b : Builder α => ∃ m : Node α, b.nodes[i]? = some m ∧ m.kind = k :=
  fun _ _ h hk => h.kind hk

/-- Every column that `Φ` picks is a column of the model. -/
theorem columns_lt (Φ : Nat → Prop) :
    Stable fun b : Builder α => ∀ v, Φ v → v < b.model.columns.size :=
  fun _ _ h hv v hΦ => Nat.lt_of_lt_of_le (hv v hΦ) h.columns

theorem forall_mem {β : Type} {R : β → Builder α → Prop} (hR : ∀ y, Stable (R y)) (l : List β) :
    Stable fun b => ∀ y ∈ l, R y b :=
  fun b b' h hl y hy => hR y b b' h (hl y hy)

theorem operandsEncoded (id : Nat) : Stable fun b : Builder α => b.OperandsEncoded id := by
  rintro b b' h ⟨n, hn, hops⟩
  obtain ⟨n', hn', hk, -⟩ := h.nodes id n hn
  exact ⟨n', hn', fun c hc => h.encoded (hops c (hk ▸ hc))⟩

end Stable

/-- The arena and the flat model refer only to what is there. -/
structure Sound [Scalar α] (b : Builder α) : Prop where
  children : ∀ (i : Nat) (n : Node α), b.nodes[i]? = some n → ∀ c ∈ n.kind.children, c < i
  columns : ∀ (i : Nat) (n : Node α) (v : Nat), b.nodes[i]? = some n → n.encoding = some (.column v) →
    v < b.model.columns.size
  operands : ∀ (i : Nat) (n : Node α), b.nodes[i]? = some n → n.encoding.isSome →
    ∀ c ∈ n.kind.children, b.Encoded c
  rows : ∀ r ∈ b.model.rows.toList, r.OnColumns b.model.columns.size
  objective : ∀ o, b.model.objective = some o → o.column < b.model.columns.size
  decisions : b.model.decisions.Nodup ∧ ∀ d ∈ b.model.decisions, d < b.model.columns.size
  readings : ∀ p ∈ b.readings, ∃ m : Node α, b.nodes[p.2]? = some m ∧
    m.kind = .rel .ne p.1 (.const Scalar.zero) ∧ m.encoding.isSome

/-! ### The updates of a walk keep a builder sound -/

section Updates

variable [Scalar α] {b b' : Builder α}

/-- The readings of a sound builder stay sound in an extension with the same readings. -/
theorem Sound.readings_of_extends (h : b.Sound) (hext : b.Extends b')
    (hr : b'.readings = b.readings) : ∀ p ∈ b'.readings, ∃ m : Node α, b'.nodes[p.2]? = some m ∧
      m.kind = .rel .ne p.1 (.const Scalar.zero) ∧ m.encoding.isSome := by
  intro p hp
  rw [hr] at hp
  obtain ⟨m, hm, hk, he⟩ := h.readings p hp
  obtain ⟨m', hm', hk', he'⟩ := hext.nodes _ m hm
  exact ⟨m', hm', hk'.trans hk, he' he⟩

/-- A change of the flat model alone that keeps every column, row, objective and decision, and
only adds columns. -/
theorem Sound.model_update (h : b.Sound) {m : FlatModel α}
    (hcols : b.model.columns.size ≤ m.columns.size)
    (hrows : ∀ r ∈ m.rows.toList, r.OnColumns m.columns.size)
    (hobj : ∀ o, m.objective = some o → o.column < m.columns.size)
    (hdec : m.decisions = b.model.decisions) : { b with model := m }.Sound := by
  have hext : b.Extends { b with model := m } := ⟨fun _ n hn => ⟨n, hn, rfl, id⟩, hcols⟩
  refine ⟨h.children, fun i n v hn he => ?_, fun i n hn he c hc => ?_, hrows, hobj, ?_,
    h.readings_of_extends hext rfl⟩
  · exact Nat.lt_of_lt_of_le (h.columns i n v hn he) hcols
  · exact hext.encoded (h.operands i n hn he c hc)
  · rw [hdec]
    exact ⟨h.decisions.1, fun d hd => Nat.lt_of_lt_of_le (h.decisions.2 d hd) hcols⟩

omit [Scalar α] in
theorem extends_model {m : FlatModel α} (hcols : b.model.columns.size ≤ m.columns.size) :
    b.Extends { b with model := m } :=
  ⟨fun _ n hn => ⟨n, hn, rfl, id⟩, hcols⟩

theorem Sound.addColumn (h : b.Sound) (name : String) (kind : ColumnKind) (lower upper : α) :
    { b with model := (b.model.addColumn name kind lower upper).2 }.Sound := by
  have hsize : (b.model.addColumn name kind lower upper).2.columns.size =
      b.model.columns.size + 1 := by
    simp [FlatModel.addColumn]
  refine h.model_update (by omega) (fun r hr => ?_) (fun o ho => ?_) (by simp [FlatModel.addColumn])
  · rw [hsize]
    exact (h.rows r (by simpa [FlatModel.addColumn] using hr)).mono (by omega)
  · rw [hsize]
    exact Nat.lt_succ_of_lt (h.objective o (by simpa [FlatModel.addColumn] using ho))

theorem Sound.addRow (h : b.Sound) {r : Row α} (hr : r.OnColumns b.model.columns.size) :
    { b with model := b.model.addRow r }.Sound := by
  refine h.model_update le_rfl (fun r' hr' => ?_) h.objective rfl
  simp only [FlatModel.addRow, Array.toList_push, List.mem_append, List.mem_singleton] at hr'
  rcases hr' with hr' | rfl
  · exact h.rows r' hr'
  · exact hr

theorem Sound.modifyColumn (h : b.Sound) (v : Nat) (f : Column α → Column α) :
    { b with model := b.model.modifyColumn v f }.Sound := by
  have hsize : (b.model.modifyColumn v f).columns.size = b.model.columns.size := by
    simp [FlatModel.modifyColumn]
  exact h.model_update hsize.ge (fun r hr => hsize ▸ h.rows r hr)
    (fun o ho => hsize ▸ h.objective o ho) rfl

theorem Sound.setObjective (h : b.Sound) {o : Objective} (ho : o.column < b.model.columns.size) :
    { b with model := { b.model with objective := some o } }.Sound := by
  refine h.model_update le_rfl h.rows (fun o' ho' => ?_) rfl
  cases ho'
  exact ho

omit [Scalar α] in
theorem extends_pushNode (n : Node α) : b.Extends (b.pushNode n).2 := by
  refine ⟨fun i m hm => ⟨m, ?_, rfl, id⟩, le_rfl⟩
  have hi := (Array.getElem?_eq_some_iff.mp hm).1
  simp only [Builder.pushNode, Array.getElem?_push, if_neg (Nat.ne_of_lt hi), hm]

/-- Appending a node whose operands precede it and that has no encoding. -/
theorem Sound.pushNode (h : b.Sound) {n : Node α} (hc : ∀ c ∈ n.kind.children, c < b.nodes.size)
    (he : n.encoding = none) : (b.pushNode n).2.Sound := by
  have hext := extends_pushNode (b := b) n
  -- a node of the new arena is the new node or an old one
  have hget : ∀ i m, (b.pushNode n).2.nodes[i]? = some m →
      (i = b.nodes.size ∧ m = n) ∨ b.nodes[i]? = some m := by
    intro i m hm
    simp only [Builder.pushNode, Array.getElem?_push] at hm
    split_ifs at hm with hi
    · exact .inl ⟨hi, (Option.some.inj hm).symm⟩
    · exact .inr hm
  refine ⟨fun i m hm c hc' => ?_, fun i m v hm hv => ?_, fun i m hm hs c hc' => ?_, h.rows,
    h.objective, h.decisions, h.readings_of_extends hext rfl⟩
  · rcases hget i m hm with ⟨rfl, rfl⟩ | hm
    · exact hc c hc'
    · exact h.children i m hm c hc'
  · rcases hget i m hm with ⟨rfl, rfl⟩ | hm
    · rw [he] at hv
      cases hv
    · exact h.columns i m v hm hv
  · rcases hget i m hm with ⟨rfl, rfl⟩ | hm
    · rw [he] at hs
      cases hs
    · exact hext.encoded (h.operands i m hm hs c hc')

omit [Scalar α] in
theorem extends_setEncoding (id : Nat) (e : Encoding) :
    b.Extends { b with nodes := b.nodes.modify id (fun n => { n with encoding := some e }),
                       encoded := b.encoded ++ [id] } := by
  refine ⟨fun i n hn => ?_, le_rfl⟩
  by_cases hi : id = i
  · subst hi
    exact ⟨{ n with encoding := some e }, by simp [Array.getElem?_modify, hn], rfl, fun _ => rfl⟩
  · exact ⟨n, by simp [Array.getElem?_modify, hi, hn], rfl, fun h => h⟩

/-- Recording an encoding on an existing column for a node whose operands are encoded. -/
theorem Sound.setEncoding (h : b.Sound) {id : Nat} {e : Encoding}
    (he : ∀ v, e = .column v → v < b.model.columns.size)
    (hops : ∀ n, b.nodes[id]? = some n → ∀ c ∈ n.kind.children, b.Encoded c) :
    { b with nodes := b.nodes.modify id (fun n => { n with encoding := some e }),
             encoded := b.encoded ++ [id] }.Sound := by
  have hext := extends_setEncoding (b := b) id e
  -- a node of the new arena is an old node, with the new encoding at `id`
  have hget : ∀ i m, (b.nodes.modify id (fun n => { n with encoding := some e }))[i]? = some m →
      ∃ n, b.nodes[i]? = some n ∧ ((i = id ∧ m = { n with encoding := some e }) ∨ (i ≠ id ∧ m = n)) := by
    intro i m hm
    rw [Array.getElem?_modify] at hm
    by_cases hi : id = i
    · subst hi
      cases hn : b.nodes[id]? with
      | none => simp [hn] at hm
      | some n => exact ⟨n, rfl, .inl ⟨rfl, by simp [hn] at hm; exact hm.symm⟩⟩
    · rw [if_neg hi] at hm
      exact ⟨m, hm, .inr ⟨Ne.symm hi, rfl⟩⟩
  refine ⟨fun i m hm c hc => ?_, fun i m v hm hv => ?_, fun i m hm hs c hc => ?_, h.rows,
    h.objective, h.decisions, h.readings_of_extends hext rfl⟩
  · obtain ⟨n, hn, ⟨-, rfl⟩ | ⟨-, rfl⟩⟩ := hget i m hm
    · exact h.children i n hn c hc
    · exact h.children i m hn c hc
  · obtain ⟨n, hn, ⟨-, rfl⟩ | ⟨-, rfl⟩⟩ := hget i m hm
    · cases hv
      exact he v rfl
    · exact h.columns i m v hn hv
  · obtain ⟨n, hn, ⟨rfl, rfl⟩ | ⟨-, rfl⟩⟩ := hget i m hm
    · exact hext.encoded (hops n hn c hc)
    · exact hext.encoded (h.operands i m hn hs c hc)

omit [Scalar α] in
theorem extends_readings (l : List (Nat × Nat)) : b.Extends { b with readings := l } :=
  ⟨fun _ n hn => ⟨n, hn, rfl, fun h => h⟩, le_rfl⟩

/-- Caching the reading `x ↦ ne` of an encoded node `ne` of kind `x ≠ 0`. -/
theorem Sound.addReading (h : b.Sound) {x ne : Nat}
    (hne : ∃ m : Node α, b.nodes[ne]? = some m ∧ m.kind = .rel .ne x (.const Scalar.zero) ∧
      m.encoding.isSome) :
    { b with readings := (x, ne) :: b.readings }.Sound := by
  refine ⟨h.children, h.columns, h.operands, h.rows, h.objective, h.decisions, fun p hp => ?_⟩
  rcases List.mem_cons.mp hp with rfl | hp
  · exact hne
  · exact h.readings p hp

end Updates

end Builder

/-! ### Folding encoded nodes into a row -/

/-- A fold in `Except` whose every step keeps `I` keeps it. -/
theorem foldlM_except_of_step {ε σ β : Type} (I : σ → Prop) {f : σ → β → Except ε σ} :
    ∀ (l : List β) (init : σ), I init →
      (∀ acc x, x ∈ l → I acc → ∀ acc', f acc x = .ok acc' → I acc') →
      ∀ r, l.foldlM f init = .ok r → I r
  | [], init, hinit, _, r, h => by
    cases h
    exact hinit
  | x :: xs, init, hinit, hstep, r, h => by
    rw [List.foldlM_cons] at h
    cases hx : f init x with
    | error e =>
      rw [hx] at h
      cases h
    | ok acc =>
      rw [hx] at h
      exact foldlM_except_of_step I xs acc (hstep init x List.mem_cons_self hinit acc hx)
        (fun acc' y hy => hstep acc' y (List.mem_cons_of_mem _ hy)) r h

/-- Folding the nodes of a sound builder into a row adds terms on its columns only: a node folds
to its column, a view or an affine sum to the columns of its operands. -/
theorem Row.addNode_onColumns {α : Type} [Scalar α] {b : Builder α} (hb : b.Sound) (id : Nat) :
    ∀ {r r' : Row α} {coef : α}, r.OnColumns b.model.columns.size →
      Row.addNode b.nodes r id coef = .ok r' → r'.OnColumns b.model.columns.size := by
  induction id using Nat.strongRecOn with
  | ind id ih =>
  intro r r' coef hr h
  rw [Row.addNode] at h
  split at h
  · cases h
  next n hn =>
  split at h
  · cases h
    exact hr
  split at h
  · -- a view: its base, with the constant moved into the bounds
    split at h
    · exact ih _ ‹_› (hr.addConstant _) h
    · cases h
  · -- a node with a column
    cases h
    exact hr.addVar (hb.columns id n _ hn ‹_›) coef
  · -- an affine sum: its operands, one after another
    refine foldlM_except_of_step (fun r : Row α => r.OnColumns _) _ _ (hr.addConstant _) (fun acc t _ hacc acc' ht => ?_) r' h
    split at ht
    · exact ih _ ‹_› hacc ht
    · cases ht
  · cases h
    exact hr.addConstant _
  · cases h

/-! ### Steps that keep builders sound -/

namespace Lowering

variable {α β γ : Type} [Scalar α]

/-- Run from a sound builder with `P`, a step that succeeds extends it to a sound builder, and its
value and the builder it leaves satisfy `Q`. -/
def Sustains (P : Builder α → Prop) (x : Lowering α β) (Q : β → Builder α → Prop) : Prop :=
  ∀ b a b', b.Sound → P b → x.run b = .ok a b' → b.Extends b' ∧ b'.Sound ∧ Q a b'

namespace Sustains

variable {P P' : Builder α → Prop} {x : Lowering α β} {Q Q' : β → Builder α → Prop}

theorem pure {a : β} (h : ∀ b, P b → Q a b) : Sustains P (Pure.pure a) Q := by
  intro b a' b' hb hP hrun
  cases hrun
  exact ⟨.refl b, hb, h b hP⟩

theorem throw {e : ModelError α} : Sustains P (MonadExcept.throw e : Lowering α β) Q := by
  intro b a b' _ _ hrun
  cases hrun

theorem mono (hx : Sustains P x Q) (h : ∀ a b, Q a b → Q' a b) : Sustains P x Q' := by
  intro b a b' hb hP hrun
  obtain ⟨hext, hs, hq⟩ := hx b a b' hb hP hrun
  exact ⟨hext, hs, h a b' hq⟩

theorem weaken (hx : Sustains P x Q) (h : ∀ b, P' b → P b) : Sustains P' x Q :=
  fun b a b' hb hP hrun => hx b a b' hb (h b hP) hrun

theorem bind {f : β → Lowering α γ} {R : γ → Builder α → Prop} (hx : Sustains P x Q)
    (hf : ∀ a, Sustains (Q a) (f a) R) : Sustains P (x >>= f) R := by
  intro b c b' hb hP hrun
  obtain ⟨a, b₁, h₁, h₂⟩ := run_bind_ok hrun
  obtain ⟨hext₁, hs₁, hq₁⟩ := hx b a b₁ hb hP h₁
  obtain ⟨hext₂, hs₂, hr⟩ := hf a b₁ c b' hs₁ hq₁ h₂
  exact ⟨hext₁.trans hext₂, hs₂, hr⟩

theorem map {f : β → γ} {R : γ → Builder α → Prop} (hx : Sustains P x Q)
    (h : ∀ a b, Q a b → R (f a) b) : Sustains P (f <$> x) R := by
  rw [map_eq_pure_bind]
  exact hx.bind fun a => .pure fun b hq => h a b hq

/-- A fact that every extension keeps holds after the step too. -/
theorem frame {R : Builder α → Prop} (hx : Sustains P x Q) (hR : Builder.Stable R) :
    Sustains (fun b => P b ∧ R b) x (fun a b => Q a b ∧ R b) := by
  intro b a b' hb ⟨hP, hr⟩ hrun
  obtain ⟨hext, hs, hq⟩ := hx b a b' hb hP hrun
  exact ⟨hext, hs, hq, hR b b' hext hr⟩

theorem get_bind {f : Builder α → Lowering α β}
    (hf : ∀ b₀, Sustains (fun b => P b ∧ b = b₀) (f b₀) Q) :
    Sustains P (MonadState.get >>= f) Q :=
  fun b a b' hb hP hrun => hf b b a b' hb ⟨hP, rfl⟩ hrun

theorem modify {f : Builder α → Builder α} {R : Builder α → Prop}
    (hf : ∀ b, b.Sound → P b → b.Extends (f b) ∧ (f b).Sound ∧ R (f b)) :
    Sustains P (modify f : Lowering α PUnit) (fun _ => R) := by
  intro b u b' hb hP hrun
  cases hrun
  exact hf b hb hP

theorem modifyGet {f : Builder α → β × Builder α}
    (hf : ∀ b, b.Sound → P b → b.Extends (f b).2 ∧ (f b).2.Sound ∧ Q (f b).1 (f b).2) :
    Sustains P (MonadStateOf.modifyGet f) Q := by
  intro b a b' hb hP hrun
  cases hrun
  exact hf b hb hP

theorem foldlM {f : γ → β → Lowering α γ} {l : List β} {I : γ → Builder α → Prop} {init : γ}
    (hf : ∀ acc, ∀ y ∈ l, Sustains (I acc) (f acc y) I) : Sustains (I init) (l.foldlM f init) I := by
  induction l generalizing init with
  | nil => exact .pure fun _ h => h
  | cons y ys ih =>
    rw [List.foldlM_cons]
    exact (hf init y List.mem_cons_self).bind fun acc =>
      ih fun acc' z hz => hf acc' z (List.mem_cons_of_mem _ hz)

/-- A loop whose every step keeps the invariant `I`. -/
theorem forM {f : β → Lowering α PUnit} {l : List β} {I : Builder α → Prop}
    (hf : ∀ y ∈ l, Sustains I (f y) (fun _ => I)) : Sustains I (l.forM f) (fun _ => I) := by
  induction l with
  | nil => exact .pure fun _ h => h
  | cons y ys ih =>
    show Sustains I (f y >>= fun _ => ys.forM f) _
    exact (hf y List.mem_cons_self).bind fun _ => ih fun z hz => hf z (List.mem_cons_of_mem _ hz)

/-- A loop whose step for `y` establishes a fact `R y` that every extension keeps establishes
them all. -/
theorem forM_all {f : β → Lowering α PUnit} {l : List β} {I : Builder α → Prop}
    {R : β → Builder α → Prop} (hR : ∀ y, Builder.Stable (R y))
    (hf : ∀ y ∈ l, Sustains I (f y) (fun _ b => I b ∧ R y b)) :
    Sustains I (l.forM f) (fun _ b => I b ∧ ∀ y ∈ l, R y b) := by
  induction l with
  | nil => exact .pure fun _ h => ⟨h, fun _ hy => absurd hy List.not_mem_nil⟩
  | cons y ys ih =>
    show Sustains I (f y >>= fun _ => ys.forM f) _
    -- the fact of the first step is carried through the rest of the loop
    refine (hf y List.mem_cons_self).bind fun _ =>
      ((ih fun z hz => hf z (List.mem_cons_of_mem _ hz)).frame (hR y)).mono ?_
    rintro _ b ⟨⟨hI, hys⟩, hy⟩
    exact ⟨hI, fun z hz => (List.mem_cons.mp hz).elim (fun h => h ▸ hy) (hys z)⟩

end Sustains

/-! ### The primitive steps -/

section Primitives

variable {P : Builder α → Prop}

theorem nodeAt_sustains (id : Nat) :
    Sustains P (nodeAt id) (fun n b => P b ∧ b.nodes[id]? = some n) := by
  intro b n b' hb hP hrun
  rw [nodeAt_run] at hrun
  split at hrun
  · next m hm =>
    cases hrun
    exact ⟨.refl b, hb, hP, hm⟩
  · cases hrun

theorem pushNode_sustains (hP : Builder.Stable P) {n : Node α}
    (hc : ∀ b, P b → ∀ c ∈ n.kind.children, c < b.nodes.size) (he : n.encoding = none) :
    Sustains P (pushNode n) (fun i b => P b ∧ b.nodes[i]? = some n) :=
  Sustains.modifyGet fun b hb hp =>
    ⟨Builder.extends_pushNode n, hb.pushNode (hc b hp) he, hP _ _ (Builder.extends_pushNode n) hp,
      by simp [Builder.pushNode]⟩

theorem setEncoding_sustains (hP : Builder.Stable P) {id : Nat} {e : Encoding}
    (h : ∀ b, P b → e.OnColumns b.model.columns.size ∧ b.OperandsEncoded id) :
    Sustains P (setEncoding id e) (fun _ b => P b ∧ b.Encoded id) := by
  refine Sustains.modify fun b hb hp => ?_
  obtain ⟨he, n, hn, hops⟩ := h b hp
  have hext := Builder.extends_setEncoding (b := b) id e
  -- the operands of `id` are those of the one node at `id`
  have hops' : ∀ m, b.nodes[id]? = some m → ∀ c ∈ m.kind.children, b.Encoded c := by
    intro m hm
    rw [hn, Option.some.injEq] at hm
    exact hm ▸ hops
  refine ⟨hext, hb.setEncoding he hops', hP _ _ hext hp, { n with encoding := some e }, ?_, rfl⟩
  have hlt : id < b.nodes.size := (Array.getElem?_eq_some_iff.mp hn).1
  simp [Array.getElem?_modify, hn]

theorem addColumn_run (name : String) (kind : ColumnKind) (lower upper : α) (b : Builder α) :
    (addColumn name kind lower upper).run b =
      .ok b.model.columns.size { b with model := (b.model.addColumn name kind lower upper).2 } :=
  rfl

theorem addColumn_sustains (hP : Builder.Stable P) (name : String) (kind : ColumnKind)
    (lower upper : α) :
    Sustains P (addColumn name kind lower upper) (fun v b => P b ∧ v < b.model.columns.size) := by
  intro b v b' hb hp hrun
  rw [addColumn_run] at hrun
  cases hrun
  have hext : b.Extends { b with model := (b.model.addColumn name kind lower upper).2 } :=
    Builder.extends_model (by simp [FlatModel.addColumn])
  exact ⟨hext, hb.addColumn name kind lower upper, hP _ _ hext hp, by simp [FlatModel.addColumn]⟩

theorem post_sustains (hP : Builder.Stable P) (r : Row α) :
    Sustains (fun b => P b ∧ r.OnColumns b.model.columns.size) (post r) (fun _ => P) :=
  Sustains.modify fun b hb hp =>
    have hext := Builder.extends_model (b := b) (m := b.model.addRow r) le_rfl
    ⟨hext, hb.addRow hp.2, hP _ _ hext hp.1⟩

/-- Folding a node into a row on existing columns gives a row on existing columns. -/
theorem fold_sustains (r : Row α) (id : Nat) (coef : α) :
    Sustains (fun b => P b ∧ r.OnColumns b.model.columns.size) (fold r id coef)
      (fun r' b => P b ∧ r'.OnColumns b.model.columns.size) := by
  intro b r' b' hb hp hrun
  have hget : (get : Lowering α (Builder α)).run b = .ok b b := rfl
  rw [fold, run_bind, hget] at hrun
  dsimp only at hrun
  cases hfold : r.addNode b.nodes id coef with
  | error e =>
    rw [hfold] at hrun
    cases hrun
  | ok r'' =>
    rw [hfold] at hrun
    cases hrun
    exact ⟨.refl b, hb, hp.1, Row.addNode_onColumns hb id hp.2 hfold⟩

theorem indicator_sustains (hP : Builder.Stable P) (id : Nat) (tag : String) :
    Sustains P (indicator id tag) (fun v b => P b ∧ v < b.model.columns.size) :=
  addColumn_sustains hP _ _ _ _

theorem columnLike_sustains (hP : Builder.Stable P) (like : Nat) (pfx : String) :
    Sustains P (columnLike like pfx) (fun v b => P b ∧ v < b.model.columns.size) :=
  (nodeAt_sustains like).bind fun _ =>
    (addColumn_sustains hP _ _ _ _).weaken fun _ h => h.1

end Primitives

end Lowering

end MipLowering
