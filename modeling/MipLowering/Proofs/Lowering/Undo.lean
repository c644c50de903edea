import MipLowering.Proofs.Lowering.Growth

/-!
# Every lowering step can be undone

A lowering step is *undoable* from a builder `b₀` when, run from any builder that grew from `b₀`,
it leaves one that grew from `b₀`, whether it succeeds or fails. Steps that only read, append or
set the objective are undoable from every builder; recording an encoding is undoable from `b₀`
when the node had none in `b₀`, and changing a column when the column is newer than `b₀`. The
combinators below lift this through `bind`, `foldlM` and `forM`, so that the walk of an add is
undoable from the builder it starts from, and a failed add is rolled back to exactly that builder.

## Main definitions

* `MipLowering.Lowering.Undoable` — a step that keeps growth from `b₀`, with a postcondition.

## Main results

* `MipLowering.Lowering.visit_undoable` — a nested walk is undoable from every builder.
* `MipLowering.Lowering.encode_undoable` — lowering a node unencoded in `b₀`.
* `MipLowering.Lowering.visit_cases` — a walk leaves an encoded node as it is (forcing on the
  indicator of an asserted relation), and otherwise grows the builder.
-/

namespace MipLowering

namespace Lowering

variable {α β γ : Type}

/-- Run from any builder that grew from `b₀`, `x` leaves a builder that grew from `b₀`, whether it
fails or not, and its value satisfies `Q` when it succeeds. -/
def Undoable (b₀ : Builder α) (x : Lowering α β) (Q : β → Prop) : Prop :=
  ∀ b, b₀.Grows b → match x.run b with
    | .ok a b' => b₀.Grows b' ∧ Q a
    | .error _ b' => b₀.Grows b'

variable {b₀ : Builder α}

theorem run_bind (x : Lowering α β) (f : β → Lowering α γ) (b : Builder α) :
    (x >>= f).run b = match x.run b with
      | .ok a b' => (f a).run b'
      | .error e b' => .error e b' := by
  show EStateM.bind x f b = _
  unfold EStateM.bind EStateM.run
  cases x b <;> rfl

theorem run_bind_ok {x : Lowering α β} {f : β → Lowering α γ} {b b' : Builder α} {c : γ}
    (h : (x >>= f).run b = .ok c b') : ∃ a b₁, x.run b = .ok a b₁ ∧ (f a).run b₁ = .ok c b' := by
  rw [run_bind] at h
  cases hx : x.run b with
  | ok a b₁ =>
    rw [hx] at h
    exact ⟨a, b₁, rfl, h⟩
  | error e b₁ =>
    rw [hx] at h
    cases h

/-- Once its first step has run, a bind that succeeded runs its continuation from there. -/
theorem run_bind_ok_of {x : Lowering α β} {f : β → Lowering α γ} {b b₁ b' : Builder α} {a : β}
    {c : γ} (h : (x >>= f).run b = .ok c b') (hx : x.run b = .ok a b₁) : (f a).run b₁ = .ok c b' := by
  rw [run_bind, hx] at h
  exact h

namespace Undoable

theorem pure {a : β} {Q : β → Prop} (h : Q a) : Undoable b₀ (Pure.pure a) Q :=
  fun _ hb => ⟨hb, h⟩

theorem throw {e : ModelError α} {Q : β → Prop} : Undoable b₀ (MonadExcept.throw e) Q :=
  fun _ hb => hb

theorem mono {x : Lowering α β} {Q R : β → Prop} (hx : Undoable b₀ x Q) (h : ∀ a, Q a → R a) :
    Undoable b₀ x R := by
  intro b hb
  have := hx b hb
  split at this <;> simp_all

theorem bind {x : Lowering α β} {f : β → Lowering α γ} {Q : β → Prop} {R : γ → Prop}
    (hx : Undoable b₀ x Q) (hf : ∀ a, Q a → Undoable b₀ (f a) R) : Undoable b₀ (x >>= f) R := by
  intro b hb
  have h := hx b hb
  rw [run_bind]
  split at h
  · exact hf _ h.2 _ h.1
  · exact h

theorem map {x : Lowering α β} {f : β → γ} {Q : β → Prop} {R : γ → Prop}
    (hx : Undoable b₀ x Q) (h : ∀ a, Q a → R (f a)) : Undoable b₀ (f <$> x) R := by
  rw [map_eq_pure_bind]
  exact hx.bind fun a ha => .pure (h a ha)

theorem get_bind {f : Builder α → Lowering α β} {Q : β → Prop}
    (hf : ∀ b, b₀.Grows b → Undoable b₀ (f b) Q) : Undoable b₀ (MonadState.get >>= f) Q :=
  fun b hb => hf b hb b hb

theorem modify {f : Builder α → Builder α} (hf : ∀ b, b₀.Grows b → b₀.Grows (f b)) :
    Undoable b₀ (modify f : Lowering α PUnit) (fun _ => True) :=
  fun b hb => ⟨hf b hb, trivial⟩

theorem modifyGet {f : Builder α → β × Builder α} {Q : β → Prop}
    (hf : ∀ b, b₀.Grows b → b₀.Grows (f b).2 ∧ Q (f b).1) :
    Undoable b₀ (MonadStateOf.modifyGet f) Q :=
  fun b hb => hf b hb

theorem foldlM {f : γ → β → Lowering α γ} {l : List β} {P : γ → Prop} {init : γ}
    (hinit : P init) (hf : ∀ acc, P acc → ∀ x ∈ l, Undoable b₀ (f acc x) P) :
    Undoable b₀ (l.foldlM f init) P := by
  induction l generalizing init with
  | nil => exact .pure hinit
  | cons x xs ih =>
    rw [List.foldlM_cons]
    exact (hf init hinit x List.mem_cons_self).bind fun acc hacc =>
      ih hacc fun acc' hacc' y hy => hf acc' hacc' y (List.mem_cons_of_mem _ hy)

/-- A fold whose every step is undoable. -/
theorem foldlM_trivial {f : γ → β → Lowering α γ} {l : List β} {init : γ}
    (hf : ∀ acc, ∀ x ∈ l, Undoable b₀ (f acc x) (fun _ => True)) :
    Undoable b₀ (l.foldlM f init) (fun _ => True) :=
  foldlM trivial fun acc _ x hx => hf acc x hx

theorem forM {f : β → Lowering α PUnit} {l : List β}
    (hf : ∀ x ∈ l, Undoable b₀ (f x) (fun _ => True)) :
    Undoable b₀ (l.forM f) (fun _ => True) := by
  induction l with
  | nil => exact .pure trivial
  | cons x xs ih =>
    show Undoable b₀ (f x >>= fun _ => xs.forM f) _
    exact (hf x List.mem_cons_self).bind fun _ _ =>
      ih fun y hy => hf y (List.mem_cons_of_mem _ hy)

end Undoable

/-! ### The steps shared by every encoding -/

theorem nodeAt_run (id : Nat) (b : Builder α) :
    (nodeAt id).run b = match b.nodes[id]? with
      | some n => .ok n b
      | none => .error (.unknownNode id) b := by
  have hget : (get : Lowering α (Builder α)).run b = .ok b b := rfl
  -- after the read of the state, the run is the match on the node
  rw [nodeAt, run_bind, hget]
  dsimp only
  cases hn : b.nodes[id]? with
  | some n =>
    simp only [Builder.node, hn]
    rfl
  | none =>
    simp only [Builder.node, hn]
    rfl

theorem nodeAt_undoable (id : Nat) :
    Undoable b₀ (nodeAt id) (fun n => n.encoding = none → b₀.Unencoded id) := by
  refine Undoable.get_bind fun b hb => ?_
  cases hn : b.nodes[id]? with
  | none =>
    simp only [Builder.node, hn]
    exact .throw
  | some n =>
    simp only [Builder.node, hn]
    exact .pure fun hnone => hb.unencoded_of hn hnone

theorem pushNode_undoable (n : Node α) :
    Undoable b₀ (pushNode n) (fun ne => b₀.nodes.size ≤ ne) :=
  Undoable.modifyGet fun _ hb => ⟨hb.pushNode n, hb.nodes_size_le⟩

theorem setEncoding_undoable {id : Nat} (hid : b₀.Unencoded id) (e : Encoding) :
    Undoable b₀ (setEncoding id e) (fun _ => True) :=
  Undoable.modify fun _ hb => hb.setEncoding hid e

theorem addColumn_undoable [Scalar α] (name : String) (kind : ColumnKind) (lower upper : α) :
    Undoable b₀ (addColumn name kind lower upper) (fun v => b₀.model.columns.size ≤ v) :=
  Undoable.modifyGet fun b hb => ⟨hb.addColumn name kind lower upper, by
    simpa [FlatModel.addColumn] using hb.columns.length_le⟩

theorem post_undoable [Scalar α] (r : Row α) : Undoable b₀ (post r) (fun _ => True) :=
  Undoable.modify fun _ hb => hb.addRow r

theorem fold_undoable [Scalar α] (r : Row α) (id : Nat) (coef : α) :
    Undoable b₀ (fold r id coef) (fun _ => True) := by
  refine Undoable.get_bind fun b _ => ?_
  split
  · exact .pure trivial
  · exact .throw

theorem indicator_undoable [Scalar α] (id : Nat) (tag : String) :
    Undoable b₀ (indicator id tag) (fun v => b₀.model.columns.size ≤ v) :=
  addColumn_undoable _ _ _ _

theorem columnLike_undoable [Scalar α] (like : Nat) (pfx : String) :
    Undoable b₀ (columnLike like pfx) (fun v => b₀.model.columns.size ≤ v) :=
  (nodeAt_undoable like).bind fun _ _ => addColumn_undoable _ _ _ _

/-! ### Relations, logic and scheduling pairs -/

section Encodings

variable [Scalar α]

theorem separation_undoable (expr : Row α) : Undoable b₀ (separation expr) (fun _ => True) :=
  Undoable.get_bind fun _ _ => .pure trivial

theorem bigM_undoable (id : Nat) (gap : α) : Undoable b₀ (bigM id gap) (fun _ => True) := by
  unfold bigM
  dsimp only
  split
  · exact .pure trivial
  · exact .throw

theorem implyLe_undoable (id : Nat) (expr : Row α) (bound : α) (guards : List Lit) :
    Undoable b₀ (implyLe id expr bound guards) (fun _ => True) := by
  unfold implyLe
  refine Undoable.get_bind fun _ _ => (bigM_undoable _ _).bind fun _ _ => ?_
  split
  exact post_undoable _

theorem implyGe_undoable (id : Nat) (expr : Row α) (bound : α) (guards : List Lit) :
    Undoable b₀ (implyGe id expr bound guards) (fun _ => True) := by
  unfold implyGe
  refine Undoable.get_bind fun _ _ => (bigM_undoable _ _).bind fun _ _ => ?_
  split
  exact post_undoable _

theorem reifyBound_undoable (id : Nat) (expr : Row α) (holds fails : α) (on : Lit)
    (upper : Bool) : Undoable b₀ (reifyBound id expr holds fails on upper) (fun _ => True) := by
  unfold reifyBound
  split
  · exact (implyLe_undoable _ _ _ _).bind fun _ _ => implyGe_undoable _ _ _ _
  · exact (implyGe_undoable _ _ _ _).bind fun _ _ => implyLe_undoable _ _ _ _

theorem reifyEq_undoable (id : Nat) (expr : Row α) (r sep : α) (on : Lit) :
    Undoable b₀ (reifyEq id expr r sep on) (fun _ => True) :=
  (implyLe_undoable _ _ _ _).bind fun _ _ => (implyGe_undoable _ _ _ _).bind fun _ _ =>
    (indicator_undoable _ _).bind fun _ _ => (implyLe_undoable _ _ _ _).bind fun _ _ =>
      implyGe_undoable _ _ _ _

theorem reifyLe_undoable (id : Nat) (expr : Row α) (tag : String) :
    Undoable b₀ (reifyLe id expr tag) (fun _ => True) :=
  (indicator_undoable _ _).bind fun _ _ => (separation_undoable _).bind fun _ _ =>
    (reifyBound_undoable _ _ _ _ _ _).bind fun _ _ => .pure trivial

theorem difference_undoable (a : Nat) (rhs : Operand α) (shift : α) :
    Undoable b₀ (difference a rhs shift) (fun _ => True) := by
  unfold difference
  refine (fold_undoable _ _ _).bind fun _ _ => ?_
  dsimp only
  split
  · exact (fold_undoable _ _ _).bind fun _ _ => .pure trivial
  · exact .pure trivial

/-- A relation asserted at top level is posted as rows. -/
theorem encodeRel_undoable (id : Nat) (rel : Rel) (expr : Row α) (top : Bool) :
    Undoable b₀ (encodeRel id rel expr top) (fun e => top = true → e = .posted) := by
  unfold encodeRel
  refine (separation_undoable _).bind fun _ _ => ?_
  split
  · split
    case h_6 =>
      exact (indicator_undoable _ _).bind fun _ _ => (implyLe_undoable _ _ _ _).bind
        fun _ _ => (implyGe_undoable _ _ _ _).bind fun _ _ => .pure fun _ => rfl
    -- every other relation is one row
    all_goals exact (post_undoable _).bind fun _ _ => .pure fun _ => rfl
  · next hnested =>
    refine (indicator_undoable _ _).bind fun _ _ => ?_
    dsimp only
    split
    case h_5 | h_6 =>
      exact (reifyEq_undoable _ _ _ _ _).bind fun _ _ => .pure fun h => absurd h hnested
    all_goals
      exact (reifyBound_undoable _ _ _ _ _ _).bind fun _ _ => .pure fun h => absurd h hnested

theorem addReading_undoable (r : Row α) (x : Reading) (coef : α) :
    Undoable b₀ (addReading r x coef) (fun _ => True) := by
  unfold addReading
  split
  · exact fold_undoable _ _ _
  · exact .pure trivial

theorem readingRow_undoable (lhs rhs : α) (z : Option Nat) (xs : List Reading) (coef : α) :
    Undoable b₀ (readingRow lhs rhs z xs coef) (fun _ => True) :=
  Undoable.foldlM trivial fun _ _ _ _ => addReading_undoable _ _ _

theorem postAnd_undoable (z : Nat) (a b : Reading) :
    Undoable b₀ (postAnd z a b) (fun _ => True) :=
  (readingRow_undoable _ _ _ _ _).bind fun _ _ => (post_undoable _).bind fun _ _ =>
    (readingRow_undoable _ _ _ _ _).bind fun _ _ => (post_undoable _).bind fun _ _ =>
      (readingRow_undoable _ _ _ _ _).bind fun _ _ => post_undoable _

theorem postOr_undoable (z : Nat) (a b : Reading) :
    Undoable b₀ (postOr z a b) (fun _ => True) :=
  (readingRow_undoable _ _ _ _ _).bind fun _ _ => (post_undoable _).bind fun _ _ =>
    (readingRow_undoable _ _ _ _ _).bind fun _ _ => (post_undoable _).bind fun _ _ =>
      (readingRow_undoable _ _ _ _ _).bind fun _ _ => post_undoable _

theorem encodePrecedence_undoable (id first second : Nat) (coefs : List Int) (top : Bool) :
    Undoable b₀ (encodePrecedence id first second coefs top) (fun e => top = true → e = .posted) :=
  (difference_undoable _ _ _).bind fun _ _ => encodeRel_undoable _ _ _ _

theorem encodeNoOverlap_undoable (id first second : Nat) (coefs : List Int) (top : Bool) :
    Undoable b₀ (encodeNoOverlap id first second coefs top) (fun e => top = true → e = .posted) := by
  unfold encodeNoOverlap
  refine (difference_undoable _ _ _).bind fun _ _ => (difference_undoable _ _ _).bind
    fun _ _ => ?_
  split
  · exact (indicator_undoable _ _).bind fun _ _ => (implyLe_undoable _ _ _ _).bind fun _ _ =>
      (implyLe_undoable _ _ _ _).bind fun _ _ => .pure fun _ => rfl
  · next hnested =>
    exact (reifyLe_undoable _ _ _).bind fun _ _ => (reifyLe_undoable _ _ _).bind fun _ _ =>
      (indicator_undoable _ _).bind fun _ _ => (postOr_undoable _ _ _).bind fun _ _ =>
        .pure fun h => absurd h hnested

/-- The reading of an operand: a boolean node, a cached reading, or a new `x ≠ 0` node. The new
node stays in the arena while its indicator is lowered (the lowering is undoable from the builder
right after the push as well), so caching it keeps the growth from `b₀`. -/
theorem reading_undoable (id : Nat) : Undoable b₀ (reading id) (fun _ => True) := by
  unfold reading
  refine (nodeAt_undoable id).bind fun n _ => ?_
  split
  · exact .pure trivial
  refine Undoable.get_bind fun _ _ => ?_
  split
  · exact .pure trivial
  intro b hb
  rw [run_bind]
  let node : Node α := ⟨.rel .ne id (.const Scalar.zero), Scalar.zero, Scalar.one, false, none⟩
  have hpush : (pushNode node).run b = .ok b.nodes.size (b.pushNode node).2 := rfl
  rw [hpush]
  dsimp only
  have h₁ : b₀.Grows (b.pushNode node).2 := hb.pushNode node
  have hne : b.nodes.size < (b.pushNode node).2.nodes.size := by simp [Builder.pushNode]
  have hfresh₀ : b₀.Unencoded b.nodes.size := fun n hn => by
    have := (Array.getElem?_eq_some_iff.mp hn).1
    have := hb.nodes_size_le
    omega
  have hfresh₁ : (b.pushNode node).2.Unencoded b.nodes.size := fun n hn => by
    simp only [Builder.pushNode, Array.getElem?_push_size, Option.some.injEq] at hn
    rw [← hn]
  generalize (b.pushNode node).2 = b₁ at h₁ hne hfresh₁ ⊢
  rw [run_bind]
  have hd₀ := (difference_undoable id (.const Scalar.zero) Scalar.zero : Undoable b₀ _ _) b₁ h₁
  have hd₁ := (difference_undoable id (.const Scalar.zero) Scalar.zero : Undoable b₁ _ _) b₁
    (.refl _)
  cases hd : (difference id (.const Scalar.zero) Scalar.zero).run b₁ with
  | error e b₂ => simpa [hd] using hd₀
  | ok expr b₂ =>
    rw [hd] at hd₀ hd₁
    dsimp only
    rw [run_bind]
    have he₀ := (encodeRel_undoable b.nodes.size .ne expr false : Undoable b₀ _ _) b₂ hd₀.1
    have he₁ := (encodeRel_undoable b.nodes.size .ne expr false : Undoable b₁ _ _) b₂ hd₁.1
    cases he : (encodeRel b.nodes.size .ne expr false).run b₂ with
    | error e b₃ => simpa [he] using he₀
    | ok enc b₃ =>
      rw [he] at he₀ he₁
      dsimp only
      rw [run_bind]
      have hs₀ := setEncoding_undoable hfresh₀ enc b₃ he₀.1
      have hs₁ := setEncoding_undoable hfresh₁ enc b₃ he₁.1
      cases hs : (setEncoding b.nodes.size enc).run b₃ with
      | error e b₄ => simpa [hs] using hs₀
      | ok u b₄ =>
        rw [hs] at hs₀ hs₁
        have hlt : b.nodes.size < b₄.nodes.size :=
          Nat.lt_of_lt_of_le hne hs₁.1.nodes_size_le
        exact ⟨hs₀.1.addReading hb.nodes_size_le hlt, trivial⟩

theorem encodeNot_undoable (id a : Nat) (top : Bool) :
    Undoable b₀ (encodeNot id a top) (fun e => top = true → e = .posted) := by
  unfold encodeNot
  refine (reading_undoable _).bind fun _ _ => ?_
  split
  · exact (readingRow_undoable _ _ _ _ _).bind fun _ _ => (post_undoable _).bind fun _ _ =>
      .pure fun _ => rfl
  · next hnested =>
    exact (indicator_undoable _ _).bind fun _ _ => (readingRow_undoable _ _ _ _ _).bind
      fun _ _ => (post_undoable _).bind fun _ _ => .pure fun h => absurd h hnested

theorem encodeAnd_undoable (id a b : Nat) (top : Bool) :
    Undoable b₀ (encodeAnd id a b top) (fun e => top = true → e = .posted) := by
  unfold encodeAnd
  refine (reading_undoable _).bind fun _ _ => (reading_undoable _).bind fun _ _ => ?_
  split
  · exact (readingRow_undoable _ _ _ _ _).bind fun _ _ => (post_undoable _).bind fun _ _ =>
      (readingRow_undoable _ _ _ _ _).bind fun _ _ => (post_undoable _).bind fun _ _ =>
        .pure fun _ => rfl
  · next hnested =>
    exact (indicator_undoable _ _).bind fun _ _ => (postAnd_undoable _ _ _).bind fun _ _ =>
      .pure fun h => absurd h hnested

theorem encodeOr_undoable (id a b : Nat) (top : Bool) :
    Undoable b₀ (encodeOr id a b top) (fun e => top = true → e = .posted) := by
  unfold encodeOr
  refine (reading_undoable _).bind fun _ _ => (reading_undoable _).bind fun _ _ => ?_
  split
  · exact (readingRow_undoable _ _ _ _ _).bind fun _ _ => (post_undoable _).bind fun _ _ =>
      .pure fun _ => rfl
  · next hnested =>
    exact (indicator_undoable _ _).bind fun _ _ => (postOr_undoable _ _ _).bind fun _ _ =>
      .pure fun h => absurd h hnested

/-! ### Flow constraints, variables, sums and objectives -/

theorem flowVariable_undoable (id : Nat) (f : FlowRows α) (entry : Nat × Nat × List Int) :
    Undoable b₀ (flowVariable id f entry) (fun _ => True) := by
  obtain ⟨i, x, dom⟩ := entry
  unfold flowVariable
  refine (fold_undoable _ _ _).bind fun _ _ => ?_
  refine (Undoable.foldlM_trivial fun _ _ _ =>
    (addColumn_undoable _ _ _ _).bind fun _ _ => .pure trivial).bind fun _ _ => ?_
  split
  exact (post_undoable _).bind fun _ _ => .pure trivial

theorem encodeFlow_undoable (id : Nat) (kind : FlowKind) (vars : List Nat)
    (values lb ub : List Int) :
    Undoable b₀ (encodeFlow id kind vars values lb ub) (fun _ => True) := by
  unfold encodeFlow
  refine Undoable.get_bind fun _ _ => ?_
  dsimp only
  split
  · simp only [pure_bind]
    refine (Undoable.foldlM_trivial fun _ _ _ =>
      flowVariable_undoable _ _ _).bind fun _ _ => ?_
    exact (Undoable.forM fun _ _ => post_undoable _).bind fun _ _ =>
      (Undoable.forM fun _ _ => post_undoable _).bind fun _ _ =>
        Undoable.forM fun _ _ => post_undoable _
  · exact .throw

theorem encodeIntVar_undoable (id : Nat) (lower upper : Int) (values : Option (List Int)) :
    Undoable b₀ (encodeIntVar id lower upper values) (fun _ => True) := by
  unfold encodeIntVar
  refine (addColumn_undoable _ _ _ _).bind fun x hx => ?_
  split
  · exact .pure trivial
  split
  · exact .pure trivial
  refine (Undoable.modify fun _ hb => hb.modifyColumn hx _).bind fun _ _ => ?_
  refine (Undoable.foldlM_trivial fun _ _ _ =>
    (addColumn_undoable _ _ _ _).bind fun _ _ => .pure trivial).bind fun _ _ => ?_
  split
  exact (post_undoable _).bind fun _ _ => (post_undoable _).bind fun _ _ => .pure trivial

theorem sumRow_undoable (id : Nat) (lhs rhs : α) :
    Undoable b₀ (sumRow id lhs rhs) (fun _ => True) := by
  unfold sumRow
  refine (nodeAt_undoable _).bind fun _ _ => ?_
  split
  · exact Undoable.foldlM_trivial fun _ _ _ => fold_undoable _ _ _
  · exact .pure trivial

theorem encodeSum_undoable (id : Nat) (top : Bool) :
    Undoable b₀ (encodeSum id top) (fun _ => True) := by
  unfold encodeSum
  refine (nodeAt_undoable _).bind fun _ _ => ?_
  split
  · exact (sumRow_undoable _ _ _).bind fun _ _ => (post_undoable _).bind fun _ _ => .pure trivial
  · exact (columnLike_undoable _ _).bind fun _ _ => (sumRow_undoable _ _ _).bind fun _ _ =>
      (post_undoable _).bind fun _ _ => .pure trivial

theorem encodeObjective_undoable (id : Nat) (sense : Sense) (expr : Nat) (top : Bool) :
    Undoable b₀ (encodeObjective id sense expr top) (fun _ => True) := by
  unfold encodeObjective
  split
  · exact .throw
  refine Undoable.get_bind fun _ _ => ?_
  split
  · exact .throw
  exact (columnLike_undoable _ _).bind fun _ _ => (fold_undoable _ _ _).bind fun _ _ =>
    (post_undoable _).bind fun _ _ =>
      (Undoable.modify fun _ hb => hb.setObjective _).bind fun _ _ => .pure trivial

/-! ### Lowering a node and the walk -/

/-- Lowering a node of any kind; a relation, logic or pair node asserted at top level is
posted as rows. -/
theorem encodeKind_undoable (id : Nat) (k : Kind α) (top : Bool) :
    Undoable b₀ (encodeKind id k top) (fun e => top = true → k.isBinop = true → e = .posted) := by
  unfold encodeKind
  split
  · exact (addColumn_undoable _ _ _ _).map fun _ _ _ h => by simp [Kind.isBinop] at h
  · exact (encodeIntVar_undoable _ _ _ _).map fun _ _ _ h => by simp [Kind.isBinop] at h
  · exact .pure fun _ h => by simp [Kind.isBinop] at h
  · exact (encodeSum_undoable _ _).mono fun _ _ _ h => by simp [Kind.isBinop] at h
  · exact (difference_undoable _ _ _).bind fun _ _ =>
      (encodeRel_undoable _ _ _ _).mono fun _ h htop _ => h htop
  · exact (encodePrecedence_undoable _ _ _ _ _).mono fun _ h htop _ => h htop
  · exact (encodeNoOverlap_undoable _ _ _ _ _).mono fun _ h htop _ => h htop
  · exact (encodeNot_undoable _ _ _).mono fun _ h htop _ => h htop
  · exact (encodeAnd_undoable _ _ _ _).mono fun _ h htop _ => h htop
  · exact (encodeOr_undoable _ _ _ _).mono fun _ h htop _ => h htop
  · split
    · exact .throw
    · exact (encodeFlow_undoable _ _ _ _ _ _).bind fun _ _ => .pure fun _ _ => rfl
  · exact (encodeObjective_undoable _ _ _ _).mono fun _ _ _ h => by simp [Kind.isBinop] at h

/-- Lowering a node that had no encoding in `b₀`. -/
theorem encode_undoable {id : Nat} (hid : b₀.Unencoded id) (top : Bool) :
    Undoable b₀ (encode id top) (fun _ => True) :=
  (nodeAt_undoable id).bind fun n _ => (encodeKind_undoable id n.kind top).bind fun e _ =>
    setEncoding_undoable hid e

/-- A node lowered successfully carries the encoding it was lowered to, and a relation, logic or
pair node asserted at top level is posted. -/
theorem encode_run_ok {b b' : Builder α} {id : Nat} {top : Bool}
    (h : (encode id top).run b = .ok () b') :
    ∃ n e, b'.nodes[id]? = some n ∧ n.encoding = some e ∧
      (top = true → n.kind.isBinop = true → e = .posted) := by
  unfold encode at h
  obtain ⟨n, b₁, hn, h⟩ := run_bind_ok h
  obtain ⟨e, b₂, he, hs⟩ := run_bind_ok h
  rw [nodeAt_run] at hn
  split at hn
  case h_2 => cases hn
  next hnode =>
  cases hn
  have hlow := (encodeKind_undoable id n.kind top : Undoable b _ _) b (.refl b)
  rw [he] at hlow
  obtain ⟨e', hnode₂, -⟩ := hlow.1.nodes id n hnode
  have hb' : b' = { b₂ with
      nodes := b₂.nodes.modify id (fun n => { n with encoding := some e })
      encoded := b₂.encoded ++ [id] } := by
    cases hs
    rfl
  refine ⟨{ n with encoding := some e }, e, ?_, rfl, hlow.2⟩
  have hlt : id < b₂.nodes.size := (Array.getElem?_eq_some_iff.mp hnode₂).1
  rw [hb', Array.getElem?_modify, hnode₂]
  simp

/-- A nested walk is undoable from every builder: it encodes only nodes without encoding. -/
theorem visit_undoable (id : Nat) : Undoable b₀ (visit id false) (fun _ => True) := by
  induction id using Nat.strongRecOn with
  | ind id ih =>
  rw [visit]
  refine (nodeAt_undoable id).bind fun n hn => ?_
  split
  · exact .pure trivial
  · exact .pure trivial
  · next hnone =>
    refine (Undoable.forM fun c _ => ?_).bind fun _ _ => encode_undoable (hn hnone) false
    split
    · exact ih c ‹_›
    · exact .throw

/-- What a walk does. A node already encoded is left as it is, except that at top level a
relation, logic or pair node with a column has that column forced on. A walk from any other
node grows the builder, whether it fails or not, and when it succeeds the node is encoded, a
relation, logic or pair node asserted at top level as posted rows. -/
theorem visit_cases (b : Builder α) (id : Nat) (top : Bool) :
    (∃ n, b.nodes[id]? = some n ∧ ∃ e, n.encoding = some e ∧
      (visit id top).run b = .ok () (b.revisit top n.kind e)) ∨
    (b.Unencoded id ∧ match (visit id top).run b with
      | .ok _ b' => b.Grows b' ∧ ∃ n e, b'.nodes[id]? = some n ∧ n.encoding = some e ∧
          (top = true → n.kind.isBinop = true → e = .posted)
      | .error _ b' => b.Grows b') := by
  cases hn : b.nodes[id]? with
  | none =>
    have hrun : (visit id top).run b = .error (.unknownNode id) b := by
      rw [visit, run_bind, nodeAt_run, hn]
    exact .inr ⟨fun n h => by simp [hn] at h, by rw [hrun]; exact .refl b⟩
  | some n =>
    have hnode : (nodeAt id).run b = .ok n b := by rw [nodeAt_run, hn]
    cases he : n.encoding with
    | some e =>
      refine .inl ⟨n, rfl, e, he, ?_⟩
      rw [visit, run_bind, hnode]
      dsimp only
      rw [he]
      cases e with
      | column v =>
        -- the revisit forces the column on exactly when the visit does
        by_cases hc : (top && n.kind.isBinop) = true
        · simp only [Builder.revisit, hc, if_true]
          rfl
        · simp only [Builder.revisit, hc]
          rfl
      | affine => rfl
      | posted => rfl
    | none =>
      have hunenc : b.Unencoded id := fun n' hn' => by rw [hn] at hn'; cases hn'; exact he
      refine .inr ⟨hunenc, ?_⟩
      -- the operands are walked nested, then the node itself is lowered
      let walk : Lowering α Unit := n.kind.children.forM (fun c =>
        if _h : c < id then visit c false else throw (.notEncoded c)) >>= fun _ => encode id top
      have hwalk : Undoable b walk (fun _ => True) := by
        refine (Undoable.forM fun c _ => ?_).bind fun _ _ => encode_undoable hunenc top
        split
        · exact visit_undoable c
        · exact .throw
      have hvisit : (visit id top).run b = walk.run b := by
        rw [visit, run_bind, hnode]
        dsimp only
        rw [he]
      have hg := hwalk b (.refl b)
      rw [hvisit]
      cases hrun : walk.run b with
      | ok u b' =>
        rw [hrun] at hg
        obtain ⟨_, _, -, henc⟩ := run_bind_ok hrun
        exact ⟨hg.1, encode_run_ok henc⟩
      | error e b' =>
        rw [hrun] at hg
        exact hg

end Encodings

end Lowering

end MipLowering
