import MipLowering.Proofs.Lowering.ColumnNames
import MipLowering.Proofs.Lowering.WellFormed
import MipLowering.Proofs.Search.Replay
import Mathlib.Data.List.Sort

/-!
# The columns each step of a lowering names

A lowering names every column it adds after the node it lowers (`MipLowering.ColumnName`). This
module says, step by step, which names a lowering appends to the columns of the flat model.

Most steps append a fixed list of names and leave the arena and the objective alone
(`Lowering.Appends`): the indicator of a relation and its `side` binary, the column of a
variable and the binaries of its values, the column of a nested sum. The 0/1 reading of a logic
operand may push a new node `x ≠ 0` and lower it on the spot; its columns are named after that
new node, which is encoded when the reading returns (`Lowering.Lowers`, `Builder.AddsReadings`).
A flow constraint names one binary per variable and value of its domain, and the objective one
column after its expression, which only a model without objective accepts.

Value lists have no repeats: an integer variable stores its values sorted without repeats, and
so does every explicit domain a flow constraint reads. So no step names a column twice.

## Main definitions

* `MipLowering.FlatModel.names` — the names of the columns of a model.
* `MipLowering.Lowering.Appends`, `MipLowering.Lowering.Lowers` — the names a step appends.
* `MipLowering.Builder.AddsReadings` — new nodes are encoded readings.
* `MipLowering.Lowering.OwnNames` — names owned by the node lowered, or the new objective.

## Main results

* `MipLowering.Lowering.encodeKind_names` — lowering a node appends the names of fresh readings,
  then names of its own, without repeats.
-/

namespace MipLowering

variable {α β γ : Type}

/-- The names of the columns of a flat model, in order. -/
def FlatModel.names (m : FlatModel α) : List String := m.columns.toList.map Column.name

namespace FlatModel

variable {m : FlatModel α}

@[simp] theorem names_addColumn [Scalar α] (name : String) (kind : ColumnKind) (lower upper : α) :
    (m.addColumn name kind lower upper).2.names = m.names ++ [name] := by
  simp [names, addColumn]

@[simp] theorem names_addRow (r : Row α) : (m.addRow r).names = m.names := rfl

/-- Changing a column without renaming it keeps the names. -/
theorem names_modifyColumn {v : Nat} {f : Column α → Column α} (hf : ∀ c, (f c).name = c.name) :
    (m.modifyColumn v f).names = m.names := by
  apply List.ext_getElem
  · simp [names, modifyColumn]
  · intro j h₁ h₂
    simp only [names, modifyColumn, Array.toList_modify, List.getElem_map, List.getElem_modify]
    split <;> simp [hf]

end FlatModel

/-! ### Value lists -/

section Values

/-- Erasing the repeats of a sorted list, with the values kept so far strictly increasing and
at most the current one, gives a strictly increasing list. -/
theorem pairwise_eraseRepsBy_loop : ∀ (a : Int) (l acc : List Int), (a :: l).Pairwise (· ≤ ·) →
    (a :: acc).reverse.Pairwise (· < ·) →
      (List.eraseRepsBy.loop (· == ·) a l acc).Pairwise (· < ·)
  | a, [], acc, _, hacc => by
    rw [List.eraseRepsBy.loop]
    exact hacc
  | a, a' :: l, acc, hl, hacc => by
    have ha' : a ≤ a' := List.rel_of_pairwise_cons hl List.mem_cons_self
    have hl' : (a' :: l).Pairwise (· ≤ ·) := (List.pairwise_cons.mp hl).2
    rw [List.eraseRepsBy.loop]
    cases hb : (a == a') with
    | true =>
      -- a repeat of `a` is skipped
      obtain rfl := beq_iff_eq.mp hb
      exact pairwise_eraseRepsBy_loop a l acc hl' hacc
    | false =>
      -- a new value lies above every value kept so far
      have hlt : a < a' := lt_of_le_of_ne ha' (by simpa using hb)
      refine pairwise_eraseRepsBy_loop a' l (a :: acc) hl' ?_
      rw [List.reverse_cons, List.pairwise_append]
      refine ⟨hacc, List.pairwise_singleton _ _, fun x hx y hy => ?_⟩
      rw [List.mem_singleton.mp hy]
      rw [List.reverse_cons, List.mem_append, List.mem_singleton] at hx
      rcases hx with hx | rfl
      · rw [List.reverse_cons, List.pairwise_append] at hacc
        exact (hacc.2.2 x hx a (List.mem_singleton_self a)).trans hlt
      · exact hlt

/-- Erasing the repeats of a sorted list leaves it strictly increasing. -/
theorem pairwise_lt_eraseReps_of_pairwise {l : List Int} (h : l.Pairwise (· ≤ ·)) :
    l.eraseReps.Pairwise (· < ·) := by
  cases l with
  | nil => exact List.Pairwise.nil
  | cons a l => exact pairwise_eraseRepsBy_loop a l [] h (List.pairwise_singleton _ _)

theorem nodup_eraseReps_of_pairwise {l : List Int} (h : l.Pairwise (· ≤ ·)) :
    l.eraseReps.Nodup :=
  (pairwise_lt_eraseReps_of_pairwise h).nodup

/-- A list sorted, its repeats erased, has no repeats: the value list of an integer variable and
the domain of a view are kept so. -/
theorem nodup_eraseReps_mergeSort (l : List Int) : (l.mergeSort (· ≤ ·)).eraseReps.Nodup :=
  nodup_eraseReps_of_pairwise (List.pairwise_mergeSort' (· ≤ ·) l)

/-- The value list of an integer variable, if it has one. -/
def Kind.values? : Kind α → Option (List Int)
  | .intVar _ _ values => values
  | _ => none

/-- Every integer variable of the arena lists its values without repeats. -/
def Builder.ValuesNodup (b : Builder α) : Prop :=
  ∀ (i : Nat) (n : Node α) (vs : List Int), b.nodes[i]? = some n → n.kind.values? = some vs →
    vs.Nodup

variable [Scalar α]

/-- A kind that passes validation lists the values of an integer variable in increasing order: it
stores them sorted, its repeats erased. -/
theorem Builder.derive_values_sorted {b : Builder α} {k : Kind α} {d : Kind α × α × α × Bool}
    (h : b.derive k = .ok d) : ∀ vs, d.1.values? = some vs → vs.Pairwise (· < ·) := by
  cases k
  case intVar lower upper values =>
    -- the stored list is the given one sorted, its repeats erased
    simp only [Builder.derive] at h
    split at h
    · split at h
      · obtain ⟨w, hw, h⟩ := except_bind_ok h
        cases hw
        obtain ⟨_, -, h⟩ := except_bind_ok h
        cases h
        intro vs hvs
        cases hvs
        exact pairwise_lt_eraseReps_of_pairwise (List.pairwise_mergeSort' _ _)
      · obtain ⟨_, h, -⟩ := except_bind_ok h
        cases h
    · obtain ⟨w, hw, h⟩ := except_bind_ok h
      cases hw
      obtain ⟨_, -, h⟩ := except_bind_ok h
      cases h
      intro vs hvs
      cases hvs
  -- every other kind is stored as given, and has no value list
  case floatVar | rel | not | and | or | precedence | noOverlap | objective =>
    obtain ⟨_, -, h⟩ := except_bind_ok h
    cases h
    intro vs hvs
    cases hvs
  case view shape base scale offset =>
    simp only [Builder.derive] at h
    split at h
    · obtain ⟨_, h, -⟩ := except_bind_ok h
      cases h
    · obtain ⟨_, -, h⟩ := except_bind_ok h
      cases h
      intro vs hvs
      cases hvs
  case sum vars weights offset =>
    obtain ⟨_, -, h⟩ := except_bind_ok h
    obtain ⟨_, -, h⟩ := except_bind_ok h
    cases h
    intro vs hvs
    cases hvs
  case flow kind vars values lb ub =>
    obtain ⟨_, -, h⟩ := except_bind_ok h
    split at h
    · obtain ⟨_, -, h⟩ := except_bind_ok h
      cases h
      intro vs hvs
      cases hvs
    · obtain ⟨_, -, h⟩ := except_bind_ok h
      obtain ⟨_, -, h⟩ := except_bind_ok h
      obtain ⟨_, -, h⟩ := except_bind_ok h
      cases h
      intro vs hvs
      cases hvs

/-- A kind that passes validation lists the values of an integer variable without repeats. -/
theorem Builder.derive_values_nodup {b : Builder α} {k : Kind α} {d : Kind α × α × α × Bool}
    (h : b.derive k = .ok d) : ∀ vs, d.1.values? = some vs → vs.Nodup :=
  fun vs hvs => (Builder.derive_values_sorted h vs hvs).nodup

/-- An explicit domain has no repeats: the value list of an enumerated variable, the image of a
domain under a view, sorted and its repeats erased, or the integers within bounds. -/
theorem domainValues_nodup {b : Builder α} (hv : b.ValuesNodup) {limit id : Nat} {ds : List Int}
    (h : domainValues b.nodes limit id = .ok ds) : ds.Nodup := by
  rw [domainValues] at h
  split at h
  · cases h
  next n hn =>
  split at h
  · cases h
  split at h
  · next vs hk =>
    cases h
    exact hv id n _ hn (by simp [Kind.values?, hk])
  · split at h
    · obtain ⟨_, -, h⟩ := except_bind_ok h
      cases h
      exact nodup_eraseReps_mergeSort _
    · cases h
  · dsimp only at h
    split at h
    · cases h
    · cases h
      exact List.nodup_range.map fun _ _ h => by simpa using h

end Values

namespace Lowering

/-! ### Steps that append fixed names -/

/-- Run from any builder, a step that succeeds keeps the arena and the objective, and appends
columns named `S`, in order. -/
def Appends (x : Lowering α β) (S : List ColumnName) : Prop :=
  ∀ b a b', x.run b = .ok a b' → b'.nodes = b.nodes ∧ b'.model.objective = b.model.objective ∧
    b'.model.names = b.model.names ++ S.map ColumnName.render

namespace Appends

variable {x : Lowering α β} {S S₁ S₂ : List ColumnName}

theorem pure (a : β) : Appends (Pure.pure a : Lowering α β) [] := by
  intro b a' b' h
  cases h
  exact ⟨rfl, rfl, by simp⟩

theorem throw (e : ModelError α) : Appends (MonadExcept.throw e : Lowering α β) S := by
  intro b a b' h
  cases h

theorem bind {f : β → Lowering α γ} (hx : Appends x S₁) (hf : ∀ a, Appends (f a) S₂) :
    Appends (x >>= f) (S₁ ++ S₂) := by
  intro b c b' h
  obtain ⟨a, b₁, h₁, h₂⟩ := run_bind_ok h
  obtain ⟨hn₁, ho₁, hs₁⟩ := hx b a b₁ h₁
  obtain ⟨hn₂, ho₂, hs₂⟩ := hf a b₁ c b' h₂
  exact ⟨hn₂.trans hn₁, ho₂.trans ho₁, by rw [hs₂, hs₁, List.map_append, List.append_assoc]⟩

/-- A step that names nothing, then the rest. -/
theorem nil_bind {f : β → Lowering α γ} (hx : Appends x []) (hf : ∀ a, Appends (f a) S) :
    Appends (x >>= f) S :=
  hx.bind hf

/-- A step, then steps that name nothing. -/
theorem bind_nil {f : β → Lowering α γ} (hx : Appends x S) (hf : ∀ a, Appends (f a) []) :
    Appends (x >>= f) S := by
  simpa using hx.bind hf

/-- A step that names one column, then the rest. -/
theorem single_bind {f : β → Lowering α γ} {N : ColumnName} (hx : Appends x [N])
    (hf : ∀ a, Appends (f a) S) : Appends (x >>= f) (N :: S) :=
  hx.bind hf

theorem map {f : β → γ} (hx : Appends x S) : Appends (f <$> x) S := by
  rw [map_eq_pure_bind]
  simpa using hx.bind fun a => Appends.pure (f a)

theorem get_bind {f : Builder α → Lowering α β} (hf : ∀ b₀, Appends (f b₀) S) :
    Appends (MonadState.get >>= f) S :=
  fun b a b' h => hf b b a b' h

theorem modify {f : Builder α → Builder α}
    (hf : ∀ b, (f b).nodes = b.nodes ∧ (f b).model.objective = b.model.objective ∧
      (f b).model.names = b.model.names) :
    Appends (modify f : Lowering α PUnit) [] := by
  intro b u b' h
  cases h
  simpa using hf b

theorem foldlM {f : γ → β → Lowering α γ} {l : List β} {T : β → List ColumnName} {init : γ}
    (hf : ∀ acc, ∀ y ∈ l, Appends (f acc y) (T y)) : Appends (l.foldlM f init) (l.flatMap T) := by
  induction l generalizing init with
  | nil => exact Appends.pure init
  | cons y ys ih =>
    rw [List.foldlM_cons, List.flatMap_cons]
    exact (hf init y List.mem_cons_self).bind fun acc =>
      ih fun acc' z hz => hf acc' z (List.mem_cons_of_mem _ hz)

theorem foldlM_nil {f : γ → β → Lowering α γ} {l : List β} {init : γ}
    (hf : ∀ acc, ∀ y ∈ l, Appends (f acc y) []) : Appends (l.foldlM f init) [] := by
  have h : Appends (l.foldlM f init) (l.flatMap fun _ => []) := foldlM hf
  rwa [List.flatMap_eq_nil_iff.mpr fun _ _ => rfl] at h

theorem forM {f : β → Lowering α PUnit} {l : List β} (hf : ∀ y ∈ l, Appends (f y) []) :
    Appends (l.forM f) [] := by
  induction l with
  | nil => exact Appends.pure _
  | cons y ys ih =>
    show Appends (f y >>= fun _ => ys.forM f) _
    exact (hf y List.mem_cons_self).bind fun _ => ih fun z hz => hf z (List.mem_cons_of_mem _ hz)

end Appends

theorem nodeAt_appends (id : Nat) : Appends (nodeAt id : Lowering α (Node α)) [] := by
  intro b n b' h
  rw [nodeAt_run] at h
  split at h
  · cases h
    exact ⟨rfl, rfl, by simp⟩
  · cases h

theorem post_appends (r : Row α) : Appends (post r) [] := by
  intro b u b' h
  rw [post_run] at h
  cases h
  exact ⟨rfl, rfl, by simp⟩

/-- Changing a column without renaming it. -/
theorem modifyColumn_appends (v : Nat) {f : Column α → Column α} (hf : ∀ c, (f c).name = c.name) :
    Appends (modify fun b => { b with model := b.model.modifyColumn v f } : Lowering α PUnit) [] :=
  Appends.modify fun _ => ⟨rfl, rfl, FlatModel.names_modifyColumn hf⟩

variable [Scalar α]

theorem addColumn_appends (N : ColumnName) (kind : ColumnKind) (lower upper : α) :
    Appends (addColumn N.render kind lower upper) [N] := by
  intro b v b' h
  rw [addColumn_run] at h
  cases h
  exact ⟨rfl, rfl, by simp⟩

theorem fold_appends (r : Row α) (id : Nat) (coef : α) : Appends (fold r id coef) [] := by
  refine Appends.get_bind fun _ => ?_
  split
  · exact Appends.pure _
  · exact Appends.throw _

theorem indicator_appends (id : Nat) (tag : String) :
    Appends (indicator id tag : Lowering α Nat) [.indicator id tag] :=
  addColumn_appends (.indicator id tag) _ _ _

/-- A column like node `like`, named `pfx` and the node. -/
theorem columnLike_appends {like : Nat} {pfx : String} {N : ColumnName}
    (hN : N.render = pfx ++ toString like) : Appends (columnLike like pfx : Lowering α Nat) [N] := by
  unfold columnLike
  rw [← hN]
  exact (nodeAt_appends like).nil_bind fun _ => addColumn_appends N _ _ _

/-! ### Relations and scheduling pairs -/

/-- The columns that lowering relation `rel` of node `id` names: at top level a `side` binary
for `≠`; nested the indicator of the node and, for `=` and `≠`, a `side` binary. -/
def relNames (id : Nat) : Rel → Bool → List ColumnName
  | .ne, true => [.indicator id "side"]
  | _, true => []
  | .eq, false | .ne, false => [.indicator id "", .indicator id "side"]
  | _, false => [.indicator id ""]

theorem separation_appends (expr : Row α) : Appends (separation expr) [] :=
  Appends.get_bind fun _ => Appends.pure _

theorem bigM_appends (id : Nat) (gap : α) : Appends (bigM id gap) [] := by
  unfold bigM
  dsimp only
  split
  · exact Appends.pure _
  · exact Appends.throw _

theorem implyLe_appends (id : Nat) (expr : Row α) (bound : α) (guards : List Lit) :
    Appends (implyLe id expr bound guards) [] := by
  intro b u b' h
  obtain ⟨-, rfl⟩ := implyLe_run_ok h
  exact ⟨rfl, rfl, by simp⟩

theorem implyGe_appends (id : Nat) (expr : Row α) (bound : α) (guards : List Lit) :
    Appends (implyGe id expr bound guards) [] := by
  intro b u b' h
  obtain ⟨-, rfl⟩ := implyGe_run_ok h
  exact ⟨rfl, rfl, by simp⟩

theorem reifyBound_appends (id : Nat) (expr : Row α) (holds fails : α) (on : Lit) (upper : Bool) :
    Appends (reifyBound id expr holds fails on upper) [] := by
  unfold reifyBound
  split
  · exact (implyLe_appends _ _ _ _).nil_bind fun _ => implyGe_appends _ _ _ _
  · exact (implyGe_appends _ _ _ _).nil_bind fun _ => implyLe_appends _ _ _ _

theorem reifyEq_appends (id : Nat) (expr : Row α) (r sep : α) (on : Lit) :
    Appends (reifyEq id expr r sep on) [.indicator id "side"] := by
  unfold reifyEq
  exact (implyLe_appends _ _ _ _).nil_bind fun _ => (implyGe_appends _ _ _ _).nil_bind fun _ =>
    (indicator_appends _ _).single_bind fun _ => (implyLe_appends _ _ _ _).nil_bind fun _ =>
      implyGe_appends _ _ _ _

theorem reifyLe_appends (id : Nat) (expr : Row α) (tag : String) :
    Appends (reifyLe id expr tag) [.indicator id tag] := by
  unfold reifyLe
  exact (indicator_appends _ _).single_bind fun _ => (separation_appends _).nil_bind fun _ =>
    (reifyBound_appends _ _ _ _ _ _).nil_bind fun _ => Appends.pure _

theorem difference_appends (a : Nat) (rhs : Operand α) (shift : α) :
    Appends (difference a rhs shift) [] := by
  unfold difference
  refine (fold_appends _ _ _).nil_bind fun _ => ?_
  dsimp only
  split
  · exact (fold_appends _ _ _).nil_bind fun _ => Appends.pure _
  · exact Appends.pure _

theorem encodeRel_appends (id : Nat) (rel : Rel) (expr : Row α) (top : Bool) :
    Appends (encodeRel id rel expr top) (relNames id rel top) := by
  unfold encodeRel
  refine (separation_appends _).nil_bind fun _ => ?_
  cases top with
  | true =>
    cases rel
    case ne =>
      exact (indicator_appends _ _).single_bind fun _ => (implyLe_appends _ _ _ _).nil_bind fun _ =>
        (implyGe_appends _ _ _ _).nil_bind fun _ => Appends.pure _
    all_goals exact (post_appends _).nil_bind fun _ => Appends.pure _
  | false =>
    cases rel
    case eq | ne =>
      exact (indicator_appends _ _).single_bind fun _ =>
        (reifyEq_appends _ _ _ _ _).single_bind fun _ => Appends.pure _
    all_goals exact (indicator_appends _ _).single_bind fun _ =>
      (reifyBound_appends _ _ _ _ _ _).nil_bind fun _ => Appends.pure _

theorem encodePrecedence_appends (id first second : Nat) (coefs : List Int) (top : Bool) :
    Appends (encodePrecedence id first second coefs top : Lowering α Encoding) (relNames id .le top) := by
  unfold encodePrecedence
  exact (difference_appends _ _ _).nil_bind fun _ => encodeRel_appends _ _ _ _

theorem addReading_appends (r : Row α) (x : Reading) (coef : α) :
    Appends (addReading r x coef) [] := by
  unfold addReading
  split
  · exact fold_appends _ _ _
  · exact Appends.pure _

theorem readingRow_appends (lhs rhs : α) (z : Option Nat) (xs : List Reading) (coef : α) :
    Appends (readingRow lhs rhs z xs coef) [] := by
  unfold readingRow
  exact Appends.foldlM_nil fun r x _ => addReading_appends r x coef

theorem postAnd_appends (z : Nat) (x y : Reading) :
    Appends (postAnd z x y : Lowering α Unit) [] := by
  unfold postAnd
  exact (readingRow_appends _ _ _ _ _).nil_bind fun _ => (post_appends _).nil_bind fun _ =>
    (readingRow_appends _ _ _ _ _).nil_bind fun _ => (post_appends _).nil_bind fun _ =>
      (readingRow_appends _ _ _ _ _).nil_bind fun _ => post_appends _

theorem postOr_appends (z : Nat) (x y : Reading) :
    Appends (postOr z x y : Lowering α Unit) [] := by
  unfold postOr
  exact (readingRow_appends _ _ _ _ _).nil_bind fun _ => (post_appends _).nil_bind fun _ =>
    (readingRow_appends _ _ _ _ _).nil_bind fun _ => (post_appends _).nil_bind fun _ =>
      (readingRow_appends _ _ _ _ _).nil_bind fun _ => post_appends _

theorem encodeNoOverlap_appends (id first second : Nat) (coefs : List Int) (top : Bool) :
    Appends (encodeNoOverlap id first second coefs top : Lowering α Encoding) (if top then [.indicator id "ord"]
      else [.indicator id "before", .indicator id "after", .indicator id ""]) := by
  unfold encodeNoOverlap
  refine (difference_appends _ _ _).nil_bind fun _ => (difference_appends _ _ _).nil_bind fun _ => ?_
  cases top with
  | true =>
    exact (indicator_appends _ _).single_bind fun _ => (implyLe_appends _ _ _ _).nil_bind fun _ =>
      (implyLe_appends _ _ _ _).nil_bind fun _ => Appends.pure _
  | false =>
    exact (reifyLe_appends _ _ _).single_bind fun _ => (reifyLe_appends _ _ _).single_bind fun _ =>
      (indicator_appends _ _).single_bind fun _ => (postOr_appends _ _ _).nil_bind fun _ =>
        Appends.pure _

/-! ### Variables, sums and flow constraints -/

/-- The names of the value binaries of an integer variable: one per value, when its values have
holes. -/
def valueNames (id : Nat) : Option (List Int) → List ColumnName
  | some vs => if contiguous vs then [] else vs.map (.value id)
  | none => []

theorem encodeIntVar_appends (id : Nat) (lower upper : Int) (values : Option (List Int)) :
    Appends (encodeIntVar id lower upper values : Lowering α Nat)
      (.var id :: valueNames id values) := by
  unfold encodeIntVar
  dsimp only
  refine (addColumn_appends (.var id) _ _ _).single_bind fun x => ?_
  cases values with
  | none => exact Appends.pure _
  | some vs =>
    dsimp only [valueNames]
    by_cases hc : contiguous vs = true
    · simp only [hc, if_true]
      exact Appends.pure _
    simp only [hc, Bool.false_eq_true, if_false]
    -- one binary per value, then the one-hot row and the linking row
    rw [List.map_eq_flatMap]
    refine (modifyColumn_appends x fun _ => by rfl).nil_bind fun _ => ?_
    refine (Appends.foldlM fun acc v _ => (addColumn_appends (.value id v) _ _ _).single_bind
      fun _ => Appends.pure _).bind_nil fun rows => ?_
    obtain ⟨oneHot, link⟩ := rows
    exact (post_appends _).nil_bind fun _ => (post_appends _).nil_bind fun _ => Appends.pure _

theorem sumRow_appends (id : Nat) (lhs rhs : α) : Appends (sumRow id lhs rhs) [] := by
  unfold sumRow
  refine (nodeAt_appends id).nil_bind fun n => ?_
  split
  · exact Appends.foldlM_nil fun acc t _ => fold_appends acc t.1 _
  · exact Appends.pure _

theorem encodeSum_appends (id : Nat) (top : Bool) :
    Appends (encodeSum id top : Lowering α Encoding) (if top then [] else [.sum id]) := by
  unfold encodeSum
  refine (nodeAt_appends id).nil_bind fun n => ?_
  cases top with
  | true =>
    exact (sumRow_appends _ _ _).nil_bind fun _ => (post_appends _).nil_bind fun _ =>
      Appends.pure _
  | false =>
    exact (columnLike_appends rfl).single_bind fun _ => (sumRow_appends _ _ _).nil_bind fun _ =>
      (post_appends _).nil_bind fun _ => Appends.pure _

/-- Variable number `i` of a flow constraint names one binary per value of its domain. -/
theorem flowVariable_appends (id : Nat) (f : FlowRows α) (entry : Nat × Nat × List Int) :
    Appends (flowVariable id f entry) (entry.2.2.map (.flow id entry.1)) := by
  obtain ⟨i, x, dom⟩ := entry
  unfold flowVariable
  dsimp only
  rw [List.map_eq_flatMap]
  refine (fold_appends _ _ _).nil_bind fun link => ?_
  refine (Appends.foldlM fun acc v _ => (addColumn_appends (.flow id i v) _ _ _).single_bind
    fun _ => Appends.pure _).bind_nil fun res => ?_
  obtain ⟨assign, link', f'⟩ := res
  exact (post_appends _).nil_bind fun _ => Appends.pure _

end Lowering

/-! ### Readings -/

namespace Builder

variable [Scalar α] {b b' b'' : Builder α}

/-- `b'` keeps every node of `b` as it is, and every node it has beyond them is an encoded node
`x ≠ 0`, the reading of an operand. -/
structure AddsReadings (b b' : Builder α) : Prop where
  old : ∀ (i : Nat) (n : Node α), b.nodes[i]? = some n → b'.nodes[i]? = some n
  new : ∀ (i : Nat) (n : Node α), b.nodes.size ≤ i → b'.nodes[i]? = some n →
    n.encoding.isSome ∧ ∃ x, n.kind = .rel .ne x (.const Scalar.zero)

namespace AddsReadings

theorem of_nodes (h : b'.nodes = b.nodes) : b.AddsReadings b' := by
  refine ⟨fun i n hn => h ▸ hn, fun i n hi hn => ?_⟩
  rw [h] at hn
  have := (Array.getElem?_eq_some_iff.mp hn).1
  omega

theorem size_le (h : b.AddsReadings b') : b.nodes.size ≤ b'.nodes.size := by
  rcases Nat.eq_zero_or_pos b.nodes.size with h0 | hpos
  · omega
  · have := (Array.getElem?_eq_some_iff.mp
      (h.old _ _ (Array.getElem?_eq_getElem (Nat.sub_one_lt_of_lt hpos)))).1
    omega

theorem trans (h : b.AddsReadings b') (h' : b'.AddsReadings b'') : b.AddsReadings b'' := by
  refine ⟨fun i n hn => h'.old i n (h.old i n hn), fun i n hi hn => ?_⟩
  -- a node beyond `b` was pushed from `b` to `b'`, or after `b'`
  by_cases hi' : b'.nodes.size ≤ i
  · exact h'.new i n hi' hn
  · have hm := Array.getElem?_eq_getElem (Nat.lt_of_not_le hi')
    rw [h'.old i _ hm, Option.some.injEq] at hn
    exact hn ▸ h.new i _ hi hm

theorem encoded (h : b.AddsReadings b') {i : Nat} (hi : b.Encoded i) : b'.Encoded i := by
  obtain ⟨m, hm, hs⟩ := hi
  exact ⟨m, h.old i m hm, hs⟩

/-- A node `x ≠ 0` pushed and encoded. -/
theorem push_encoded {n : Node α} {x : Nat} {e : Encoding}
    (hk : n.kind = .rel .ne x (.const Scalar.zero))
    (h : b'.nodes = (b.nodes.push n).modify b.nodes.size fun m => { m with encoding := some e }) :
    b.AddsReadings b' := by
  refine ⟨fun i m hm => ?_, fun i m hi hm => ?_⟩
  · have hlt := (Array.getElem?_eq_some_iff.mp hm).1
    rw [h, Array.getElem?_modify, if_neg (Nat.ne_of_gt hlt), Array.getElem?_push,
      if_neg (Nat.ne_of_lt hlt), hm]
  · -- the only node beyond `b` is the new one
    rw [h, Array.getElem?_modify, Array.getElem?_push] at hm
    by_cases hi' : b.nodes.size = i
    · subst hi'
      simp only [if_true, Option.map_some, Option.some.injEq] at hm
      subst hm
      exact ⟨rfl, x, hk⟩
    · rw [if_neg hi', if_neg (Ne.symm hi'), Array.getElem?_eq_none (by omega)] at hm
      cases hm

end AddsReadings

omit [Scalar α] in
theorem encoded_push {n : Node α} {e : Encoding}
    (h : b'.nodes = (b.nodes.push n).modify b.nodes.size fun m => { m with encoding := some e }) :
    b'.Encoded b.nodes.size := by
  refine ⟨{ n with encoding := some e }, ?_, rfl⟩
  rw [h, Array.getElem?_modify, if_pos rfl, Array.getElem?_push_size]
  rfl

end Builder

namespace Lowering

variable [Scalar α]

/-- The names of the columns of the readings pushed from `b` to `b'`: no repeats, and each is
owned by a node beyond the arena of `b` that `b'` has encoded. -/
def FreshNames (b b' : Builder α) (F : List ColumnName) : Prop :=
  F.Nodup ∧ ∀ N ∈ F, ∃ i, N.owner = some i ∧ b.nodes.size ≤ i ∧ b'.Encoded i

/-- Run from any builder, a step that succeeds pushes and lowers readings, keeps the objective,
and appends the columns of its readings, then columns named `S`. -/
def Lowers (x : Lowering α β) (S : List ColumnName) : Prop :=
  ∀ b a b', x.run b = .ok a b' → b.AddsReadings b' ∧ b'.model.objective = b.model.objective ∧
    ∃ F, FreshNames b b' F ∧ b'.model.names = b.model.names ++ (F ++ S).map ColumnName.render

variable {x : Lowering α β} {S : List ColumnName}

theorem Lowers.get_bind {f : Builder α → Lowering α β} (hf : ∀ b₀, Lowers (f b₀) S) :
    Lowers (MonadState.get >>= f) S :=
  fun b a b' h => hf b b a b' h

theorem Appends.lowers (hx : Appends x S) : Lowers x S := by
  intro b a b' h
  obtain ⟨hn, ho, hs⟩ := hx b a b' h
  exact ⟨.of_nodes hn, ho, [], ⟨List.nodup_nil, fun _ h => absurd h List.not_mem_nil⟩, hs⟩

/-- Readings first, then the rest: the names of the readings of both steps come first. -/
theorem Lowers.bind {f : β → Lowering α γ} (hx : Lowers x []) (hf : ∀ a, Lowers (f a) S) :
    Lowers (x >>= f) S := by
  intro b c b' h
  obtain ⟨a, b₁, h₁, h₂⟩ := run_bind_ok h
  obtain ⟨hr₁, ho₁, F₁, ⟨hnd₁, hF₁⟩, hs₁⟩ := hx b a b₁ h₁
  obtain ⟨hr₂, ho₂, F₂, ⟨hnd₂, hF₂⟩, hs₂⟩ := hf a b₁ c b' h₂
  refine ⟨hr₁.trans hr₂, ho₂.trans ho₁, F₁ ++ F₂, ⟨?_, ?_⟩, ?_⟩
  · -- the readings of the first step lie below the arena of `b₁`, those of the second beyond it
    refine List.nodup_append.mpr ⟨hnd₁, hnd₂, fun N hN M hM hNM => ?_⟩
    obtain ⟨i, hi, -, m, hm, -⟩ := hF₁ N hN
    obtain ⟨j, hj, hj₁, -⟩ := hF₂ M hM
    rw [hNM, hj, Option.some.injEq] at hi
    have := (Array.getElem?_eq_some_iff.mp hm).1
    omega
  · intro N hN
    rcases List.mem_append.mp hN with hN | hN
    · obtain ⟨i, hi, hle, henc⟩ := hF₁ N hN
      exact ⟨i, hi, hle, hr₂.encoded henc⟩
    · obtain ⟨i, hi, hle, henc⟩ := hF₂ N hN
      exact ⟨i, hi, hr₁.size_le.trans hle, henc⟩
  · rw [hs₂, hs₁]
    simp

/-- The 0/1 reading of an operand: the operand itself or a cached reading, or a new node
`ne ≠ 0` at the end of the arena, lowered to an indicator `b{ne}` and a `side` binary. -/
theorem reading_lowers (id : Nat) : Lowers (reading id : Lowering α Reading) [] := by
  unfold reading
  refine Lowers.bind (nodeAt_appends id).lowers fun n => ?_
  split
  · exact (Appends.pure _).lowers
  refine Lowers.get_bind fun _ => ?_
  split
  · exact (Appends.pure _).lowers
  intro b r b' h
  obtain ⟨ne, b₁, hp, h⟩ := run_bind_ok h
  cases hp
  obtain ⟨expr, b₂, hd, h⟩ := run_bind_ok h
  obtain ⟨hn₂, ho₂, hs₂⟩ := difference_appends _ _ _ _ _ _ hd
  obtain ⟨e, b₃, he, h⟩ := run_bind_ok h
  obtain ⟨hn₃, ho₃, hs₃⟩ := encodeRel_appends _ _ _ _ _ _ _ he
  obtain ⟨u, b₄, hs, h⟩ := run_bind_ok h
  cases hs
  obtain ⟨u', b₅, hm, h⟩ := run_bind_ok h
  cases hm
  cases h
  -- the new node is the last of the arena, encoded as its indicator
  have hnodes : (b₃.nodes.modify b.nodes.size fun m => { m with encoding := some e }) =
      (b.nodes.push ⟨.rel .ne id (.const Scalar.zero), Scalar.zero, Scalar.one, false, none⟩).modify
        b.nodes.size fun m => { m with encoding := some e } := by
    rw [hn₃, hn₂]
  refine ⟨.push_encoded rfl hnodes, ho₃.trans ho₂, [.indicator b.nodes.size "",
    .indicator b.nodes.size "side"], ⟨by simp, fun N hN => ⟨b.nodes.size, ?_, le_rfl,
      Builder.encoded_push hnodes⟩⟩, ?_⟩
  · simp only [List.mem_cons, List.not_mem_nil, or_false] at hN
    rcases hN with rfl | rfl <;> rfl
  · show b₃.model.names = _
    simp [hs₃, hs₂, relNames]

/-- Negation reads its operand, then, nested, names its indicator. -/
theorem encodeNot_lowers (id a : Nat) (top : Bool) :
    Lowers (encodeNot id a top : Lowering α Encoding) (if top then [] else [.indicator id ""]) := by
  unfold encodeNot
  refine (reading_lowers a).bind fun x => Appends.lowers ?_
  cases top with
  | true =>
    exact (readingRow_appends _ _ _ _ _).nil_bind fun _ => (post_appends _).nil_bind fun _ =>
      Appends.pure _
  | false =>
    exact (indicator_appends _ _).single_bind fun _ => (readingRow_appends _ _ _ _ _).nil_bind
      fun _ => (post_appends _).nil_bind fun _ => Appends.pure _

theorem encodeAnd_lowers (id a c : Nat) (top : Bool) :
    Lowers (encodeAnd id a c top : Lowering α Encoding) (if top then [] else [.indicator id ""]) := by
  unfold encodeAnd
  refine (reading_lowers a).bind fun x => (reading_lowers c).bind fun y => Appends.lowers ?_
  cases top with
  | true =>
    exact (readingRow_appends _ _ _ _ _).nil_bind fun _ => (post_appends _).nil_bind fun _ =>
      (readingRow_appends _ _ _ _ _).nil_bind fun _ => (post_appends _).nil_bind fun _ =>
        Appends.pure _
  | false =>
    exact (indicator_appends _ _).single_bind fun _ => (postAnd_appends _ _ _).nil_bind fun _ =>
      Appends.pure _

theorem encodeOr_lowers (id a c : Nat) (top : Bool) :
    Lowers (encodeOr id a c top : Lowering α Encoding) (if top then [] else [.indicator id ""]) := by
  unfold encodeOr
  refine (reading_lowers a).bind fun x => (reading_lowers c).bind fun y => Appends.lowers ?_
  cases top with
  | true =>
    exact (readingRow_appends _ _ _ _ _).nil_bind fun _ => (post_appends _).nil_bind fun _ =>
      Appends.pure _
  | false =>
    exact (indicator_appends _ _).single_bind fun _ => (postOr_appends _ _ _).nil_bind fun _ =>
      Appends.pure _

/-! ### Flow constraints and objectives -/

/-- The binaries of a flow constraint over `vars` with domains `domains`: one per variable, by
its position, and value of its domain. -/
def flowNames (id : Nat) (vars : List Nat) (domains : List (List Int)) : List ColumnName :=
  ((List.range vars.length).zip (vars.zip domains)).flatMap fun e => e.2.2.map (.flow id e.1)

/-- A flow constraint reads the domains of its variables in the arena it starts from, and names
the binaries of those domains. -/
theorem encodeFlow_run_ok {b b' : Builder α} {id : Nat} {kind : FlowKind} {vars : List Nat}
    {values lb ub : List Int} {u : Unit}
    (h : (encodeFlow id kind vars values lb ub).run b = .ok u b') :
    ∃ ds, vars.mapM (domainValues b.nodes b.config.maxFlowDomain) = .ok ds ∧
      b'.nodes = b.nodes ∧ b'.model.objective = b.model.objective ∧
      b'.model.names = b.model.names ++ (flowNames id vars ds).map ColumnName.render := by
  unfold encodeFlow at h
  obtain ⟨b₀, b₁, hg, h⟩ := run_bind_ok h
  cases hg
  dsimp only at h
  split at h
  case h_2 =>
    obtain ⟨_, _, hthrow, -⟩ := run_bind_ok h
    cases hthrow
  next ds hds =>
  refine ⟨ds, hds, ?_⟩
  obtain ⟨_, _, hpure, h⟩ := run_bind_ok h
  cases hpure
  obtain ⟨f, b₃, hf, h⟩ := run_bind_ok h
  obtain ⟨hn₃, ho₃, hs₃⟩ := Appends.foldlM (fun f e _ => flowVariable_appends id f (e.1, e.2.1, e.2.2)) _ _ _ hf
  -- the capacity, unreachable and linking rows name nothing
  obtain ⟨hn₄, ho₄, hs₄⟩ := ((Appends.forM fun _ _ => post_appends _).nil_bind fun _ =>
    (Appends.forM fun _ _ => post_appends _).nil_bind fun _ =>
      Appends.forM fun r _ => post_appends r) _ _ _ h
  exact ⟨hn₄.trans hn₃, ho₄.trans ho₃, by rw [hs₄, hs₃]; simp [flowNames]⟩

/-- An objective is accepted by a model without objective only; it names one column after its
expression and becomes the objective of the model. -/
theorem encodeObjective_run_ok {b b' : Builder α} {id : Nat} {sense : Sense} {expr : Nat}
    {top : Bool} {e : Encoding} (h : (encodeObjective id sense expr top).run b = .ok e b') :
    b.model.objective = none ∧ b'.model.objective.isSome ∧ b'.nodes = b.nodes ∧
      b'.model.names = b.model.names ++ [(ColumnName.objective expr).render] := by
  unfold encodeObjective at h
  dsimp only at h
  split at h
  · obtain ⟨_, _, hthrow, -⟩ := run_bind_ok h
    cases hthrow
  obtain ⟨b₀, b₂, hg, h⟩ := run_bind_ok h
  cases hg
  split at h
  · obtain ⟨_, _, hthrow, -⟩ := run_bind_ok h
    cases hthrow
  next hnone =>
  obtain ⟨o, b₄, ho, h⟩ := run_bind_ok h
  obtain ⟨hn₄, ho₄, hs₄⟩ := columnLike_appends (N := .objective expr) rfl _ _ _ ho
  obtain ⟨r, b₅, hr, h⟩ := run_bind_ok h
  obtain ⟨hn₅, -, hs₅⟩ := fold_appends _ _ _ _ _ _ hr
  obtain ⟨u, b₆, hp, h⟩ := run_bind_ok h
  obtain ⟨hn₆, -, hs₆⟩ := post_appends _ _ _ _ hp
  obtain ⟨u, b₇, hm, h⟩ := run_bind_ok h
  cases hm
  cases h
  refine ⟨Option.not_isSome_iff_eq_none.mp hnone, rfl, hn₆.trans (hn₅.trans hn₄), ?_⟩
  show b₆.model.names = _
  rw [hs₆, hs₅, hs₄]
  simp

/-! ### Lowering a node -/

/-- The names that lowering node `id` from `b` to `b'` adds for the node itself: no repeats,
each owned by `id`, or the name of the objective that `b` lacks and `b'` has. -/
def OwnNames (id : Nat) (b b' : Builder α) (S : List ColumnName) : Prop :=
  S.Nodup ∧ ∀ N ∈ S, N.owner = some id ∨
    (N.owner = none ∧ b.model.objective = none ∧ b'.model.objective.isSome)

/-- What lowering node `id` does from `b` to `b'`: it pushes encoded readings only, keeps the
objective or sets the missing one, and appends the columns of fresh readings, then columns of
its own. -/
structure LowersNode (id : Nat) (b b' : Builder α) : Prop where
  readings : b.AddsReadings b'
  objective : b'.model.objective = b.model.objective ∨
    (b.model.objective = none ∧ b'.model.objective.isSome)
  names : ∃ F S, FreshNames b b' F ∧ OwnNames id b b' S ∧
    b'.model.names = b.model.names ++ (F ++ S).map ColumnName.render

/-- A run of a step whose own names are owned by `id` and do not repeat lowers node `id`. -/
theorem LowersNode.of_lowers {id : Nat} {b b' : Builder α} {a : β} (h : x.run b = .ok a b')
    (hx : Lowers x S) (hS : S.Nodup) (hown : ∀ N ∈ S, N.owner = some id) : LowersNode id b b' := by
  obtain ⟨hr, ho, F, hF, hs⟩ := hx b a b' h
  exact ⟨hr, .inl ho, F, S, hF, ⟨hS, fun N hN => .inl (hown N hN)⟩, hs⟩

theorem relNames_nodup (id : Nat) (rel : Rel) (top : Bool) : (relNames id rel top).Nodup := by
  cases rel <;> cases top <;> simp [relNames]

theorem owner_of_mem_relNames {id : Nat} {rel : Rel} {top : Bool} :
    ∀ N ∈ relNames id rel top, N.owner = some id := by
  cases rel <;> cases top <;> simp [relNames, ColumnName.owner]

/-- Pairs whose first components are pairwise related, as in a list zipped with its positions. -/
theorem pairwise_fst_zip {δ ε : Type} {R : δ → δ → Prop} :
    ∀ {l₁ : List δ} {l₂ : List ε}, l₁.Pairwise R → (l₁.zip l₂).Pairwise fun p q => R p.1 q.1
  | [], _, _ => List.Pairwise.nil
  | _ :: _, [], _ => List.Pairwise.nil
  | a :: l₁, b :: l₂, h => by
    rw [List.zip_cons_cons, List.pairwise_cons]
    refine ⟨fun q hq => ?_, pairwise_fst_zip (List.pairwise_cons.mp h).2⟩
    obtain ⟨q₁, q₂⟩ := q
    exact List.rel_of_pairwise_cons h (List.of_mem_zip hq).1

/-- The binaries of a flow constraint do not repeat when its domains do not: binaries of one
variable differ in their value, of two variables in their position. -/
theorem flowNames_nodup {id : Nat} {vars : List Nat} {ds : List (List Int)}
    (hds : ∀ d ∈ ds, d.Nodup) : (flowNames id vars ds).Nodup := by
  unfold flowNames
  refine List.nodup_flatMap.mpr ⟨fun e he => ?_, ?_⟩
  · obtain ⟨i, x, d⟩ := e
    have hd := hds d (List.of_mem_zip (List.of_mem_zip he).2).2
    exact hd.map fun v w hvw => by cases hvw; rfl
  · refine (pairwise_fst_zip List.nodup_range).imp fun {e e'} hne => ?_
    refine List.disjoint_left.mpr fun N hN hN' => hne ?_
    obtain ⟨v, -, rfl⟩ := List.mem_map.mp hN
    obtain ⟨v', -, hvv'⟩ := List.mem_map.mp hN'
    exact (ColumnName.flow.inj hvv').2.1.symm

/-- The domains a flow constraint reads have no repeats. -/
theorem domains_nodup {b : Builder α} (hv : b.ValuesNodup) {vars : List Nat}
    {ds : List (List Int)} (h : vars.mapM (domainValues b.nodes b.config.maxFlowDomain) = .ok ds) :
    ∀ d ∈ ds, d.Nodup := by
  intro d hd
  obtain ⟨i, hi⟩ := List.mem_iff_getElem?.mp hd
  obtain ⟨x, -, hx⟩ := Search.getElem?_of_mapM_ok h hi
  exact domainValues_nodup hv hx

/-- Lowering a node appends the names of fresh readings, then names of its own without
repeats, when the value list of the node and the arena have none. -/
theorem encodeKind_names {b b' : Builder α} {id : Nat} {k : Kind α} {top : Bool} {e : Encoding}
    (hv : b.ValuesNodup) (hk : ∀ vs, k.values? = some vs → vs.Nodup)
    (h : (encodeKind id k top).run b = .ok e b') : LowersNode id b b' := by
  unfold encodeKind at h
  split at h
  case h_1 =>
    exact .of_lowers h (Appends.lowers (Appends.map (addColumn_appends (.var id) _ _ _))) (by simp)
      (by simp [ColumnName.owner])
  case h_2 lower upper values =>
    -- the column of the variable, then one binary per value
    refine .of_lowers h (Appends.lowers (Appends.map (encodeIntVar_appends id lower upper values)))
      ?_ ?_
    · cases values with
      | none => simp [valueNames]
      | some vs =>
        have hvs : vs.Nodup := hk vs rfl
        by_cases hc : contiguous vs = true
        · simp [valueNames, hc]
        · simp only [valueNames, hc, Bool.false_eq_true, if_false]
          refine List.nodup_cons.mpr ⟨by simp, hvs.map fun v w hvw => ?_⟩
          cases hvw
          rfl
    · cases values with
      | none => simp [valueNames, ColumnName.owner]
      | some vs =>
        by_cases hc : contiguous vs = true
        · simp [valueNames, hc, ColumnName.owner]
        · simp [valueNames, hc, ColumnName.owner]
  case h_3 => exact .of_lowers h (Appends.lowers (Appends.pure _)) List.nodup_nil (by simp)
  case h_4 =>
    exact .of_lowers h (Appends.lowers (encodeSum_appends id top))
      (by cases top <;> simp) (by cases top <;> simp [ColumnName.owner])
  case h_5 =>
    exact .of_lowers h (Appends.lowers (Appends.nil_bind (difference_appends _ _ _)
      fun _ => encodeRel_appends _ _ _ _)) (relNames_nodup _ _ _) owner_of_mem_relNames
  case h_6 =>
    exact .of_lowers h (Appends.lowers (encodePrecedence_appends _ _ _ _ _))
      (relNames_nodup _ _ _) owner_of_mem_relNames
  case h_7 =>
    exact .of_lowers h (Appends.lowers (encodeNoOverlap_appends _ _ _ _ _))
      (by cases top <;> simp) (by cases top <;> simp [ColumnName.owner])
  -- logic reads its operands first
  case h_8 =>
    exact .of_lowers h (encodeNot_lowers _ _ _) (by cases top <;> simp)
      (by cases top <;> simp [ColumnName.owner])
  case h_9 =>
    exact .of_lowers h (encodeAnd_lowers _ _ _ _) (by cases top <;> simp)
      (by cases top <;> simp [ColumnName.owner])
  case h_10 =>
    exact .of_lowers h (encodeOr_lowers _ _ _ _) (by cases top <;> simp)
      (by cases top <;> simp [ColumnName.owner])
  case h_11 kind vars values lb ub =>
    -- a flow constraint at top level: one binary per variable and value of its domain
    dsimp only at h
    split at h
    · obtain ⟨_, _, hthrow, -⟩ := run_bind_ok h
      cases hthrow
    obtain ⟨u, b₁, hf, h⟩ := run_bind_ok h
    cases h
    obtain ⟨ds, hds, hn, ho, hs⟩ := encodeFlow_run_ok hf
    refine ⟨.of_nodes hn, .inl ho, [], flowNames id vars ds,
      ⟨List.nodup_nil, fun _ h => absurd h List.not_mem_nil⟩,
      ⟨flowNames_nodup (domains_nodup hv hds), fun N hN => .inl ?_⟩, by simpa using hs⟩
    obtain ⟨_, -, hN⟩ := List.mem_flatMap.mp hN
    obtain ⟨_, -, rfl⟩ := List.mem_map.mp hN
    rfl
  case h_12 =>
    -- the objective: one column, named after its expression
    obtain ⟨hnone, hsome, hn, hs⟩ := encodeObjective_run_ok h
    exact ⟨.of_nodes hn, .inr ⟨hnone, hsome⟩, [], [.objective _],
      ⟨List.nodup_nil, fun _ h => absurd h List.not_mem_nil⟩,
      ⟨List.nodup_singleton _, fun N hN => .inr ⟨by rw [List.mem_singleton.mp hN]; rfl, hnone,
        hsome⟩⟩, by simpa using hs⟩

end Lowering

end MipLowering
