import MipLowering.Proofs.Lowering.Sound
import Mathlib.Algebra.BigOperators.Ring.List

/-!
# Folding nodes into rows, read exactly

`Row.addNode` adds `c · node` to a row: a view `k · x + d` moves `c · d` into the bounds and
adds `(c · k) · x`, an affine sum moves `c · offset` into the bounds and adds `(c · wᵢ) · xᵢ`
for its operands, a node with a column adds a term on that column, and a posted constraint
reads as the constant `1`. What a fold does at one node is the node's *expansion*
(`Node.expansion`); every lemma here is an induction on the node, operands first, over that
one case split.

* A fold fails exactly when it reaches, along non-zero coefficients (`Row.Reaches`), a node it
  cannot fold, and then with `unknownNode` or `notEncoded` (`Row.addNode_error_iff`). The test
  for a zero coefficient comes first, so nothing below a zero coefficient is looked at.
* It keeps the terms of a row merged: each column at most once, no zero coefficient
  (`Row.addNode_merged`).
* Read with rationals, it adds `c` times the value of the node (`evalNode`): the summed side
  gains the part that depends on the columns, and both bounds move *down* by the constant part
  `k`. So `activity - rhs` gains `c · value`, which is how a node's value is read off a row
  (`nodeValue`), and `activity_after - activity_before + (rhs_before - rhs_after)` is
  `c · value` (`Row.addNode_adds`). This needs the scales and offsets the fold expands to be
  finite: a view's are validated when it is created, a sum's offset is not.

## Main definitions

* `MipLowering.Node.expansion`, `MipLowering.Node.Folds`, `MipLowering.Row.Reaches`.
* `MipLowering.evalNode` — the value of a node at an assignment of the columns.
* `MipLowering.Row.Merged`, `MipLowering.Row.Adds`.

## Main results

* `MipLowering.Row.addNode_error_iff`, `MipLowering.Row.addNode_merged`,
  `MipLowering.Row.addNode_adds`.
* `MipLowering.Row.addNode_exact` — the three together.
-/

namespace MipLowering

open ERat

/-- What folding does at a node: expand a view or an affine sum, take a column, read a posted
constraint as `1`, or fail. -/
inductive Expansion (α : Type)
  | view (base : Nat) (scale offset : α)
  | column (v : Nat)
  | sum (terms : List (Nat × Int)) (offset : α)
  | posted
  | stuck

namespace Node

variable {α : Type}

/-- The expansion of a node, in the order `Row.addNode` tries them: a view whatever its
encoding, then a column, an affine sum, a posted constraint. -/
def expansion (n : Node α) : Expansion α :=
  match n.kind, n.encoding with
  | .view _ base scale offset, _ => .view base scale offset
  | _, some (.column v) => .column v
  | .sum vars weights offset, some .affine => .sum (vars.zip weights) offset
  | _, some .posted => .posted
  | _, _ => .stuck

/-- A node that a fold can take: a view, a node with a column, an affine sum or a posted
constraint. -/
def Folds (n : Node α) : Prop :=
  (∃ sh base scale offset, n.kind = .view sh base scale offset) ∨
    (∃ v, n.encoding = some (.column v)) ∨
    ((∃ vars weights offset, n.kind = .sum vars weights offset) ∧ n.encoding = some .affine) ∨
    n.encoding = some .posted

theorem folds_iff (n : Node α) : n.Folds ↔ n.expansion ≠ .stuck := by
  obtain ⟨k, lo, hi, cont, e⟩ := n
  cases k <;> rcases e with _ | (_ | _ | _) <;> simp [Folds, expansion]

variable {n : Node α}

theorem expansion_view {base : Nat} {scale offset : α}
    (h : n.expansion = .view base scale offset) : ∃ sh, n.kind = .view sh base scale offset := by
  unfold expansion at h
  split at h <;> cases h
  exact ⟨_, ‹_›⟩

theorem expansion_sum {terms : List (Nat × Int)} {offset : α}
    (h : n.expansion = .sum terms offset) :
    ∃ vars weights, n.kind = .sum vars weights offset ∧ terms = vars.zip weights := by
  unfold expansion at h
  split at h <;> cases h
  exact ⟨_, _, ‹_›, rfl⟩

theorem expansion_column {v : Nat} (h : n.expansion = .column v) :
    n.encoding = some (.column v) := by
  unfold expansion at h
  split at h <;> cases h
  assumption

end Node

/-- Every operand of a node precedes it in the arena. -/
def OperandsPrecede {α : Type} (nodes : Array (Node α)) : Prop :=
  ∀ (i : Nat) (n : Node α), nodes[i]? = some n → ∀ c ∈ n.kind.children, c < i

namespace OperandsPrecede

variable {α : Type} {nodes : Array (Node α)} {id : Nat} {n : Node α}

theorem view_lt (h : OperandsPrecede nodes) (hn : nodes[id]? = some n) {base : Nat}
    {scale offset : α} (hx : n.expansion = .view base scale offset) : base < id := by
  obtain ⟨sh, hk⟩ := Node.expansion_view hx
  exact h id n hn base (by simp [hk, Kind.children])

theorem sum_lt (h : OperandsPrecede nodes) (hn : nodes[id]? = some n) {terms : List (Nat × Int)}
    {offset : α} (hx : n.expansion = .sum terms offset) {t : Nat × Int} (ht : t ∈ terms) :
    t.1 < id := by
  obtain ⟨vars, weights, hk, rfl⟩ := Node.expansion_sum hx
  exact h id n hn t.1 (by rw [hk, Kind.children]; exact (List.of_mem_zip ht).1)

end OperandsPrecede

theorem Builder.Sound.operandsPrecede {α : Type} [Scalar α] {b : Builder α} (h : b.Sound) :
    OperandsPrecede b.nodes :=
  h.children

/-! ### One step of a fold -/

theorem error_bind_eq {ε σ τ : Type} (e : ε) (g : σ → Except ε τ) :
    ((Except.error e : Except ε σ) >>= g) = .error e := rfl

theorem ok_bind_eq {ε σ τ : Type} (a : σ) (g : σ → Except ε τ) :
    ((Except.ok a : Except ε σ) >>= g) = g a := rfl

namespace Row

variable {α : Type} [Scalar α]

/-- A fold at a node with a non-zero coefficient, by the node's expansion. -/
def expand (nodes : Array (Node α)) (r : Row α) (id : Nat) (coef : α) :
    Expansion α → Except (ModelError α) (Row α)
  | .view base scale offset =>
    if _h : base < id then (r.addConstant (coef * offset)).addNode nodes base (coef * scale)
    else .error (.notEncoded id)
  | .column v => .ok (r.addVar v coef)
  | .sum terms offset =>
    terms.foldlM
      (fun acc t =>
        if _h : t.1 < id then acc.addNode nodes t.1 (coef * Scalar.ofInt t.2)
        else .error (.notEncoded id))
      (r.addConstant (coef * offset))
  | .posted => .ok (r.addConstant coef)
  | .stuck => .error (.notEncoded id)

variable {nodes : Array (Node α)} {id : Nat} {n : Node α} {coef : α}

theorem addNode_none (hn : nodes[id]? = none) (r : Row α) (coef : α) :
    r.addNode nodes id coef = .error (.unknownNode id) := by
  rw [addNode, hn]

theorem addNode_zero (hn : nodes[id]? = some n) (r : Row α) (hc : (coef == Scalar.zero) = true) :
    r.addNode nodes id coef = .ok r := by
  rw [addNode, hn]
  simp only [hc, if_true]

theorem addNode_eq_expand (hn : nodes[id]? = some n) (r : Row α)
    (hc : (coef == Scalar.zero) = false) :
    r.addNode nodes id coef = expand nodes r id coef n.expansion := by
  rw [addNode, hn]
  simp only [hc, Bool.false_eq_true, if_false]
  obtain ⟨k, lo, hi, cont, e⟩ := n
  cases k <;> rcases e with _ | (_ | _ | _) <;> rfl

/-! ### Which folds fail -/

/-- Folding `c · id` reaches node `m` with coefficient `c'`: through views and affine sums,
each step taken from a non-zero coefficient. -/
inductive Reaches (nodes : Array (Node α)) : Nat → α → Nat → α → Prop
  | refl (id : Nat) (c : α) : Reaches nodes id c id c
  | view {id base m : Nat} {c scale offset c' : α} {n : Node α} :
      nodes[id]? = some n → n.expansion = .view base scale offset → (c == Scalar.zero) = false →
      Reaches nodes base (c * scale) m c' → Reaches nodes id c m c'
  | sum {id m : Nat} {c offset c' : α} {n : Node α} {terms : List (Nat × Int)} {t : Nat × Int} :
      nodes[id]? = some n → n.expansion = .sum terms offset → (c == Scalar.zero) = false →
      t ∈ terms → Reaches nodes t.1 (c * Scalar.ofInt t.2) m c' → Reaches nodes id c m c'

/-- Node `m` is in the arena and a fold can take it. -/
def Foldable (nodes : Array (Node α)) (m : Nat) : Prop := ∃ n, nodes[m]? = some n ∧ n.Folds

/-- Folding `c · id` reaches, along non-zero coefficients, a node it cannot fold. -/
def Blocked (nodes : Array (Node α)) (id : Nat) (c : α) : Prop :=
  ∃ m c', Reaches nodes id c m c' ∧ (c' == Scalar.zero) = false ∧ ¬Foldable nodes m

namespace Reaches

variable {m : Nat} {c c' : α}

/-- From a zero coefficient a fold reaches only its root. -/
theorem eq_of_zero (hc : (c == Scalar.zero) = true) (h : Reaches nodes id c m c') :
    m = id ∧ c' = c := by
  cases h with
  | refl => exact ⟨rfl, rfl⟩
  | view _ _ hc' => rw [hc] at hc'; cases hc'
  | sum _ _ hc' => rw [hc] at hc'; cases hc'

/-- Below a node that expands to a column, a posted constraint or nothing, a fold reaches only
the node itself. -/
theorem eq_of_leaf (hn : nodes[id]? = some n)
    (hv : ∀ base scale offset, n.expansion ≠ .view base scale offset)
    (hs : ∀ terms offset, n.expansion ≠ .sum terms offset) (h : Reaches nodes id c m c') :
    m = id ∧ c' = c := by
  cases h with
  | refl => exact ⟨rfl, rfl⟩
  | view hn' hx' =>
    rw [hn, Option.some.injEq] at hn'
    subst hn'
    exact absurd hx' (hv _ _ _)
  | sum hn' hx' =>
    rw [hn, Option.some.injEq] at hn'
    subst hn'
    exact absurd hx' (hs _ _)

theorem view_iff (hn : nodes[id]? = some n) {base : Nat} {scale offset : α}
    (hx : n.expansion = .view base scale offset) (hc : (c == Scalar.zero) = false) :
    Reaches nodes id c m c' ↔ (m = id ∧ c' = c) ∨ Reaches nodes base (c * scale) m c' := by
  constructor
  · intro h
    cases h with
    | refl => exact .inl ⟨rfl, rfl⟩
    | view hn' hx' _ h =>
      rw [hn, Option.some.injEq] at hn'
      subst hn'
      rw [hx] at hx'
      cases hx'
      exact .inr h
    | sum hn' hx' =>
      rw [hn, Option.some.injEq] at hn'
      subst hn'
      rw [hx] at hx'
      cases hx'
  · rintro (⟨rfl, rfl⟩ | h)
    · exact .refl _ _
    · exact .view hn hx hc h

theorem sum_iff (hn : nodes[id]? = some n) {terms : List (Nat × Int)} {offset : α}
    (hx : n.expansion = .sum terms offset) (hc : (c == Scalar.zero) = false) :
    Reaches nodes id c m c' ↔
      (m = id ∧ c' = c) ∨ ∃ t ∈ terms, Reaches nodes t.1 (c * Scalar.ofInt t.2) m c' := by
  constructor
  · intro h
    cases h with
    | refl => exact .inl ⟨rfl, rfl⟩
    | view hn' hx' =>
      rw [hn, Option.some.injEq] at hn'
      subst hn'
      rw [hx] at hx'
      cases hx'
    | sum hn' hx' _ ht h =>
      rw [hn, Option.some.injEq] at hn'
      subst hn'
      rw [hx] at hx'
      cases hx'
      exact .inr ⟨_, ht, h⟩
  · rintro (⟨rfl, rfl⟩ | ⟨t, ht, h⟩)
    · exact .refl _ _
    · exact .sum hn hx hc ht h

end Reaches

section Blocked

variable {c : α}

theorem not_blocked_of_zero (hc : (c == Scalar.zero) = true) : ¬Blocked nodes id c := by
  rintro ⟨m, c', hm, hc', -⟩
  obtain ⟨-, rfl⟩ := hm.eq_of_zero hc
  rw [hc] at hc'
  cases hc'

omit [Scalar α] in
theorem foldable_of (hn : nodes[id]? = some n) (hx : n.expansion ≠ .stuck) : Foldable nodes id :=
  ⟨n, hn, (Node.folds_iff n).2 hx⟩

theorem blocked_view (hn : nodes[id]? = some n) {base : Nat} {scale offset : α}
    (hx : n.expansion = .view base scale offset) (hc : (c == Scalar.zero) = false) :
    Blocked nodes id c ↔ Blocked nodes base (c * scale) := by
  have hf : Foldable nodes id := foldable_of hn (by rw [hx]; intro h; cases h)
  simp only [Blocked, Reaches.view_iff hn hx hc]
  constructor
  · rintro ⟨m, c', ⟨rfl, rfl⟩ | hm, hc', hm'⟩
    · exact absurd hf hm'
    · exact ⟨m, c', hm, hc', hm'⟩
  · rintro ⟨m, c', hm, hc', hm'⟩
    exact ⟨m, c', .inr hm, hc', hm'⟩

theorem blocked_sum (hn : nodes[id]? = some n) {terms : List (Nat × Int)} {offset : α}
    (hx : n.expansion = .sum terms offset) (hc : (c == Scalar.zero) = false) :
    Blocked nodes id c ↔ ∃ t ∈ terms, Blocked nodes t.1 (c * Scalar.ofInt t.2) := by
  have hf : Foldable nodes id := foldable_of hn (by rw [hx]; intro h; cases h)
  simp only [Blocked, Reaches.sum_iff hn hx hc]
  constructor
  · rintro ⟨m, c', ⟨rfl, rfl⟩ | ⟨t, ht, hm⟩, hc', hm'⟩
    · exact absurd hf hm'
    · exact ⟨t, ht, m, c', hm, hc', hm'⟩
  · rintro ⟨t, ht, m, c', hm, hc', hm'⟩
    exact ⟨m, c', .inr ⟨t, ht, hm⟩, hc', hm'⟩

/-- At a column or a posted constraint the fold stops, and succeeds. -/
theorem not_blocked_leaf (hn : nodes[id]? = some n)
    (hx : n.expansion = .posted ∨ ∃ v, n.expansion = .column v) : ¬Blocked nodes id c := by
  have hv : ∀ base scale offset, n.expansion ≠ .view base scale offset := by
    intro base scale offset h
    rcases hx with hx | ⟨v, hx⟩ <;> rw [hx] at h <;> cases h
  have hs : ∀ terms offset, n.expansion ≠ .sum terms offset := by
    intro terms offset h
    rcases hx with hx | ⟨v, hx⟩ <;> rw [hx] at h <;> cases h
  have hf : Foldable nodes id := foldable_of hn (by
    intro h
    rcases hx with hx | ⟨v, hx⟩ <;> rw [hx] at h <;> cases h)
  rintro ⟨m, c', hm, -, hm'⟩
  obtain ⟨rfl, -⟩ := hm.eq_of_leaf hn hv hs
  exact hm' hf

/-- A node that cannot be folded blocks a fold with a non-zero coefficient. -/
theorem blocked_stuck (hn : nodes[id]? = some n) (hx : n.expansion = .stuck)
    (hc : (c == Scalar.zero) = false) : Blocked nodes id c := by
  refine ⟨id, c, .refl _ _, hc, ?_⟩
  rintro ⟨n', hn', hf⟩
  rw [hn, Option.some.injEq] at hn'
  subst hn'
  exact (Node.folds_iff _).1 hf hx

end Blocked

/-- A fold in `Except` fails exactly when one of its steps does, if whether a step fails does
not depend on the accumulator. -/
theorem foldlM_error_iff {ε σ β : Type} {f : σ → β → Except ε σ} {P : β → Prop} :
    ∀ (l : List β) (init : σ), (∀ acc x, x ∈ l → ((∃ e, f acc x = .error e) ↔ P x)) →
      ((∃ e, l.foldlM f init = .error e) ↔ ∃ x ∈ l, P x)
  | [], init, _ => by
    simp only [List.foldlM_nil, List.not_mem_nil, false_and, exists_false, iff_false]
    rintro ⟨e, he⟩
    cases he
  | x :: xs, init, hstep => by
    rw [List.foldlM_cons]
    have hx := hstep init x List.mem_cons_self
    cases hfx : f init x with
    | error e =>
      rw [error_bind_eq]
      rw [hfx] at hx
      exact ⟨fun _ => ⟨x, List.mem_cons_self, hx.1 ⟨e, rfl⟩⟩, fun _ => ⟨e, rfl⟩⟩
    | ok acc =>
      rw [ok_bind_eq, foldlM_error_iff xs acc fun acc' y hy => hstep acc' y (List.mem_cons_of_mem _ hy)]
      rw [hfx] at hx
      have hnx : ¬P x := fun hP => by
        obtain ⟨e, he⟩ := hx.2 hP
        cases he
      constructor
      · rintro ⟨y, hy, hP⟩
        exact ⟨y, List.mem_cons_of_mem _ hy, hP⟩
      · rintro ⟨y, hy, hP⟩
        rcases List.mem_cons.1 hy with rfl | hy
        · exact absurd hP hnx
        · exact ⟨y, hy, hP⟩

/-- A failed fold has a failing step, whose error it returns. -/
theorem foldlM_error_step {ε σ β : Type} {f : σ → β → Except ε σ} :
    ∀ (l : List β) (init : σ) {e : ε}, l.foldlM f init = .error e →
      ∃ x ∈ l, ∃ acc e', f acc x = .error e' ∧ e' = e
  | [], init, e, h => by cases h
  | x :: xs, init, e, h => by
    rw [List.foldlM_cons] at h
    cases hfx : f init x with
    | error e' =>
      rw [hfx, error_bind_eq] at h
      cases h
      exact ⟨x, List.mem_cons_self, init, _, hfx, rfl⟩
    | ok acc =>
      rw [hfx, ok_bind_eq] at h
      obtain ⟨y, hy, acc', e', hf, rfl⟩ := foldlM_error_step xs acc h
      exact ⟨y, List.mem_cons_of_mem _ hy, acc', e', hf, rfl⟩

/-- Every failure of a fold is an unknown node or a node not encoded yet. -/
theorem addNode_error_cases (id : Nat) :
    ∀ {r : Row α} {coef : α} {e : ModelError α}, r.addNode nodes id coef = .error e →
      (∃ i, e = .unknownNode i) ∨ ∃ i, e = .notEncoded i := by
  induction id using Nat.strongRecOn with
  | ind id ih =>
  intro r coef e h
  cases hn : nodes[id]? with
  | none =>
    rw [addNode_none hn] at h
    cases h
    exact .inl ⟨id, rfl⟩
  | some n =>
  cases hc : coef == Scalar.zero
  · rw [addNode_eq_expand hn r hc] at h
    cases hx : n.expansion with
    | view base scale offset =>
      rw [hx] at h
      simp only [expand] at h
      split at h
      · exact ih base ‹_› h
      · cases h
        exact .inr ⟨id, rfl⟩
    | column v =>
      rw [hx] at h
      cases h
    | sum terms offset =>
      rw [hx] at h
      simp only [expand] at h
      -- the fold stops at its first failing step
      obtain ⟨t, -, acc, e', ht, rfl⟩ := foldlM_error_step terms _ h
      split at ht
      · exact ih t.1 ‹_› ht
      · cases ht
        exact .inr ⟨id, rfl⟩
    | posted =>
      rw [hx] at h
      cases h
    | stuck =>
      rw [hx] at h
      cases h
      exact .inr ⟨id, rfl⟩
  · rw [addNode_zero hn r hc] at h
    cases h

/-- A fold fails exactly when it reaches, along non-zero coefficients, a node it cannot fold. -/
theorem addNode_error_iff (hord : OperandsPrecede nodes) (id : Nat) :
    ∀ (r : Row α) (coef : α), id < nodes.size →
      ((∃ e, r.addNode nodes id coef = .error e) ↔ Blocked nodes id coef) := by
  induction id using Nat.strongRecOn with
  | ind id ih =>
  intro r coef hid
  obtain ⟨n, hn⟩ : ∃ n, nodes[id]? = some n := ⟨nodes[id], Array.getElem?_eq_getElem hid⟩
  cases hc : coef == Scalar.zero
  · rw [addNode_eq_expand hn r hc]
    cases hx : n.expansion with
    | view base scale offset =>
      have hb := hord.view_lt hn hx
      simp only [expand, dif_pos hb]
      rw [ih base hb _ _ (Nat.lt_trans hb hid), blocked_view hn hx hc]
    | column v =>
      simp only [expand]
      refine iff_of_false (fun ⟨e, he⟩ => by cases he) (not_blocked_leaf hn (.inr ⟨v, hx⟩))
    | sum terms offset =>
      simp only [expand]
      rw [blocked_sum hn hx hc]
      refine foldlM_error_iff terms _ fun acc t ht => ?_
      have htl := hord.sum_lt hn hx ht
      rw [dif_pos htl]
      exact ih t.1 htl acc _ (Nat.lt_trans htl hid)
    | posted =>
      simp only [expand]
      exact iff_of_false (fun ⟨e, he⟩ => by cases he) (not_blocked_leaf hn (.inl hx))
    | stuck =>
      simp only [expand]
      exact iff_of_true ⟨_, rfl⟩ (blocked_stuck hn hx hc)
  · rw [addNode_zero hn r hc]
    exact iff_of_false (fun ⟨e, he⟩ => by cases he) (not_blocked_of_zero hc)

/-! ### Merged terms -/

/-- Each column appears at most once among the terms, and no coefficient is zero. -/
def Merged (r : Row α) : Prop :=
  (r.terms.map Prod.fst).Nodup ∧ ∀ t ∈ r.terms, (t.2 == Scalar.zero) = false

theorem nodup_mergeTerm (v : Nat) (c : α) : ∀ {ts : List (Nat × α)}, (ts.map Prod.fst).Nodup →
    ((mergeTerm v c ts).map Prod.fst).Nodup
  | [], _ => by simp [mergeTerm]
  | (w, d) :: rest, h => by
    rw [List.map_cons, List.nodup_cons] at h
    simp only [mergeTerm]
    split_ifs with hw
    · exact h.2
    · rw [List.map_cons, List.nodup_cons]
      exact h
    · rw [List.map_cons, List.nodup_cons]
      refine ⟨fun hmem => ?_, nodup_mergeTerm v c h.2⟩
      obtain ⟨t, ht, rfl⟩ := List.mem_map.1 hmem
      rcases mem_mergeTerm v c ht with heq | ⟨t', ht', heq⟩
      · exact hw (by rw [heq, beq_self_eq_true])
      · exact h.1 (heq ▸ List.mem_map_of_mem ht')

theorem nonzero_mergeTerm (v : Nat) {c : α} (hc : (c == Scalar.zero) = false) :
    ∀ {ts : List (Nat × α)}, (∀ t ∈ ts, (t.2 == Scalar.zero) = false) →
      ∀ t ∈ mergeTerm v c ts, (t.2 == Scalar.zero) = false
  | [], _ => by simpa [mergeTerm] using hc
  | (w, d) :: rest, h => by
    intro t ht
    simp only [mergeTerm] at ht
    split_ifs at ht with hw hs
    · exact h t (List.mem_cons_of_mem _ ht)
    · rcases List.mem_cons.1 ht with rfl | ht
      · simpa using hs
      · exact h t (List.mem_cons_of_mem _ ht)
    · rcases List.mem_cons.1 ht with rfl | ht
      · exact h _ List.mem_cons_self
      · exact nonzero_mergeTerm v hc (fun t ht => h t (List.mem_cons_of_mem _ ht)) t ht

theorem Merged.addVar {r : Row α} (h : r.Merged) (v : Nat) (c : α) : (r.addVar v c).Merged := by
  unfold Row.addVar
  split
  · exact h
  next hc =>
    exact ⟨nodup_mergeTerm v c h.1, nonzero_mergeTerm v (Bool.eq_false_iff.2 hc) h.2⟩

theorem Merged.addConstant {r : Row α} (h : r.Merged) (k : α) : (r.addConstant k).Merged := h

/-- Folding keeps a row's terms merged. -/
theorem addNode_merged (id : Nat) :
    ∀ {r r' : Row α} {coef : α}, r.Merged → r.addNode nodes id coef = .ok r' → r'.Merged := by
  induction id using Nat.strongRecOn with
  | ind id ih =>
  intro r r' coef hr h
  cases hn : nodes[id]? with
  | none =>
    rw [addNode_none hn] at h
    cases h
  | some n =>
  cases hc : coef == Scalar.zero
  · rw [addNode_eq_expand hn r hc] at h
    cases hx : n.expansion with
    | view base scale offset =>
      rw [hx] at h
      simp only [expand] at h
      split at h
      · exact ih base ‹_› (hr.addConstant _) h
      · cases h
    | column v =>
      rw [hx] at h
      cases h
      exact hr.addVar v coef
    | sum terms offset =>
      rw [hx] at h
      simp only [expand] at h
      refine foldlM_except_of_step Merged terms _ (hr.addConstant _) (fun acc t _ hacc acc' ht => ?_)
        r' h
      split at ht
      · exact ih t.1 ‹_› hacc ht
      · cases ht
    | posted =>
      rw [hx] at h
      cases h
      exact hr.addConstant coef
    | stuck =>
      rw [hx] at h
      cases h
  · rw [addNode_zero hn r hc] at h
    cases h
    exact hr

end Row

/-! ### The value of a node -/

/-- The value of node `id` at the column values `V`, read with rationals: a view is
`scale · base + offset` whatever its encoding, a node with a column is the value of the
column, an affine sum is `offset + Σ wᵢ · xᵢ`, and a posted constraint is `1`. -/
def evalNode (nodes : Array (Node ERat)) (V : Array ERat) (id : Nat) : Rat :=
  match nodes[id]? with
  | none => 0
  | some n =>
    match n.expansion with
    | .view base scale offset =>
      if _h : base < id then scale.toRat * evalNode nodes V base + offset.toRat else 0
    | .column v => (V.getD v Scalar.zero).toRat
    | .sum terms offset =>
      offset.toRat + (terms.map fun t =>
        if _h : t.1 < id then (t.2 : Rat) * evalNode nodes V t.1 else 0).sum
    | .posted => 1
    | .stuck => 0
termination_by id

section EvalNode

variable {nodes : Array (Node ERat)} {V : Array ERat} {id : Nat} {n : Node ERat}

theorem evalNode_view (hn : nodes[id]? = some n) {base : Nat} {scale offset : ERat}
    (hx : n.expansion = .view base scale offset) (hb : base < id) :
    evalNode nodes V id = scale.toRat * evalNode nodes V base + offset.toRat := by
  rw [evalNode, hn]
  simp only [hx, dif_pos hb]

theorem evalNode_column (hn : nodes[id]? = some n) {v : Nat} (hx : n.expansion = .column v) :
    evalNode nodes V id = (V.getD v Scalar.zero).toRat := by
  rw [evalNode, hn]
  simp only [hx]

theorem evalNode_sum (hn : nodes[id]? = some n) {terms : List (Nat × Int)} {offset : ERat}
    (hx : n.expansion = .sum terms offset) (hlt : ∀ t ∈ terms, t.1 < id) :
    evalNode nodes V id =
      offset.toRat + (terms.map fun t => (t.2 : Rat) * evalNode nodes V t.1).sum := by
  rw [evalNode, hn]
  simp only [hx]
  congr 2
  exact List.map_congr_left fun t ht => dif_pos (hlt t ht)

theorem evalNode_posted (hn : nodes[id]? = some n) (hx : n.expansion = .posted) :
    evalNode nodes V id = 1 := by
  rw [evalNode, hn]
  simp only [hx]

end EvalNode

/-! ### Folds read with rationals -/

namespace ERat

theorem sub_fin_sub_fin (x : ERat) (a b : Rat) : x - fin a - fin b = x - fin (a + b) := by
  cases x with
  | fin p =>
    simp only [fin_sub_fin]
    congr 1
    ring
  | _ => rfl

theorem sub_fin_zero (x : ERat) : x - fin 0 = x := by
  cases x with
  | fin p => simp
  | _ => rfl

end ERat

/-- The scales and offsets of an expansion are finite. -/
def Expansion.Finite : Expansion ERat → Prop
  | .view _ scale offset => (∃ s, scale = .fin s) ∧ ∃ o, offset = .fin o
  | .sum _ offset => ∃ o, offset = .fin o
  | _ => True

namespace Row

@[simp] theorem addVar_lhs {α : Type} [Scalar α] (r : Row α) (v : Nat) (c : α) :
    (r.addVar v c).lhs = r.lhs := by
  unfold addVar
  split <;> rfl

@[simp] theorem addVar_rhs {α : Type} [Scalar α] (r : Row α) (v : Nat) (c : α) :
    (r.addVar v c).rhs = r.rhs := by
  unfold addVar
  split <;> rfl

@[simp] theorem value_addConstant (r : Row ERat) (k : ERat) (V : Array ERat) :
    (r.addConstant k).value V = r.value V := rfl

theorem FiniteCoefs.addConstant {r : Row ERat} (h : r.FiniteCoefs) (k : ERat) :
    (r.addConstant k).FiniteCoefs := h

/-- `r'` is `r` with `δ` added to its summed side, read with rationals: both bounds move down
by one constant `k`, and the summed side gains `δ` less `k`. -/
def Adds (r r' : Row ERat) (δ : Array ERat → Rat) : Prop :=
  ∃ k : Rat, r'.lhs = r.lhs - .fin k ∧ r'.rhs = r.rhs - .fin k ∧
    ∀ V, r'.value V = r.value V + δ V - k

namespace Adds

variable {r r₁ r₂ : Row ERat} {δ δ₁ δ₂ : Array ERat → Rat}

theorem refl (r : Row ERat) : Adds r r fun _ => 0 :=
  ⟨0, (sub_fin_zero _).symm, (sub_fin_zero _).symm, fun V => by ring⟩

theorem trans (h₁ : Adds r r₁ δ₁) (h₂ : Adds r₁ r₂ δ₂) : Adds r r₂ fun V => δ₁ V + δ₂ V := by
  obtain ⟨k₁, hl₁, hr₁, hv₁⟩ := h₁
  obtain ⟨k₂, hl₂, hr₂, hv₂⟩ := h₂
  refine ⟨k₁ + k₂, by rw [hl₂, hl₁, sub_fin_sub_fin], by rw [hr₂, hr₁, sub_fin_sub_fin],
    fun V => ?_⟩
  rw [hv₂, hv₁]
  ring

theorem congr (h : Adds r r₁ δ₁) (hδ : ∀ V, δ₁ V = δ₂ V) : Adds r r₁ δ₂ := by
  obtain ⟨k, hl, hr, hv⟩ := h
  exact ⟨k, hl, hr, fun V => by rw [hv, hδ]⟩

end Adds

theorem adds_addConstant (r : Row ERat) (k : Rat) : Adds r (r.addConstant (.fin k)) fun _ => k :=
  ⟨k, rfl, rfl, fun V => by rw [value_addConstant]; ring⟩

theorem adds_addVar {r : Row ERat} (hr : r.FiniteCoefs) (v : Nat) (c : Rat) :
    Adds r (r.addVar v (.fin c)) fun V => c * (V.getD v Scalar.zero).toRat :=
  ⟨0, by rw [addVar_lhs, sub_fin_zero], by rw [addVar_rhs, sub_fin_zero],
    fun V => by rw [value_addVar hr]; ring⟩

/-- Steps that each add their own quantity add the sum of them. -/
theorem Adds.foldlM {ε β : Type} {f : Row ERat → β → Except ε (Row ERat)}
    {δ : β → Array ERat → Rat} :
    ∀ (l : List β) (r r' : Row ERat), r.FiniteCoefs →
      (∀ x ∈ l, ∀ a a', a.FiniteCoefs → f a x = .ok a' → a'.FiniteCoefs ∧ Adds a a' (δ x)) →
      l.foldlM f r = .ok r' → r'.FiniteCoefs ∧ Adds r r' fun V => (l.map fun x => δ x V).sum
  | [], r, r', hr, _, h => by
    cases h
    exact ⟨hr, (Adds.refl r).congr fun V => by simp⟩
  | x :: xs, r, r', hr, hstep, h => by
    rw [List.foldlM_cons] at h
    cases hfx : f r x with
    | error e =>
      rw [hfx, error_bind_eq] at h
      cases h
    | ok a =>
      rw [hfx, ok_bind_eq] at h
      obtain ⟨ha, hadds⟩ := hstep x List.mem_cons_self r a hr hfx
      obtain ⟨hr', hrest⟩ := Adds.foldlM xs a r' ha
        (fun y hy => hstep y (List.mem_cons_of_mem _ hy)) h
      exact ⟨hr', (hadds.trans hrest).congr fun V => by simp⟩

/-- Folding `q · id` into a row adds `q` times the value of the node, when the scales and
offsets the fold expands are finite. -/
theorem addNode_adds {nodes : Array (Node ERat)} (hord : OperandsPrecede nodes) (id : Nat) :
    ∀ {r r' : Row ERat} {q : Rat}, r.FiniteCoefs →
      (∀ m c' n, Reaches nodes id (.fin q) m c' → (c' == Scalar.zero) = false →
        nodes[m]? = some n → n.expansion.Finite) →
      r.addNode nodes id (.fin q) = .ok r' →
      r'.FiniteCoefs ∧ Adds r r' fun V => q * evalNode nodes V id := by
  induction id using Nat.strongRecOn with
  | ind id ih =>
  intro r r' q hr hfin h
  cases hn : nodes[id]? with
  | none =>
    rw [addNode_none hn] at h
    cases h
  | some n =>
  by_cases hq : q = 0
  · -- a zero coefficient adds nothing
    subst hq
    rw [addNode_zero hn r (by simp [Scalar.zero])] at h
    cases h
    exact ⟨hr, (Adds.refl r).congr fun V => by ring⟩
  have hc : ((.fin q : ERat) == Scalar.zero) = false := by simp [Scalar.zero, hq]
  rw [addNode_eq_expand hn r hc] at h
  have hexp := hfin id (.fin q) n (.refl id _) hc hn
  cases hx : n.expansion with
  | view base scale offset =>
    rw [hx] at h hexp
    obtain ⟨⟨s, rfl⟩, ⟨o, rfl⟩⟩ := hexp
    have hb := hord.view_lt hn hx
    simp only [expand, dif_pos hb, fin_mul_fin] at h
    -- the offset goes into the bounds, the base is folded with the scaled coefficient
    obtain ⟨hr', hadds⟩ := ih base hb (hr.addConstant _)
      (fun m c' n' hm => hfin m c' n' (.view hn hx hc (by rwa [fin_mul_fin]))) h
    refine ⟨hr', ((adds_addConstant r _).trans hadds).congr fun V => ?_⟩
    rw [evalNode_view hn hx hb, toRat_fin, toRat_fin]
    ring
  | column v =>
    rw [hx] at h
    cases h
    refine ⟨hr.addVar v q, (adds_addVar hr v q).congr fun V => ?_⟩
    rw [evalNode_column hn hx]
  | sum terms offset =>
    rw [hx] at h hexp
    obtain ⟨o, rfl⟩ := hexp
    simp only [expand, fin_mul_fin] at h
    have hlt := fun t ht => hord.sum_lt hn hx (t := t) ht
    -- the offset goes into the bounds, then each operand with its weight
    obtain ⟨hr', hadds⟩ := Adds.foldlM (δ := fun t V => q * t.2 * evalNode nodes V t.1) terms _ r'
      (hr.addConstant _) (fun t ht a a' ha hstep => by
        rw [dif_pos (hlt t ht), ofInt_eq, fin_mul_fin] at hstep
        obtain ⟨ha', hadds⟩ := ih t.1 (hlt t ht) ha (fun m c' n' hm => hfin m c' n'
          (.sum hn hx hc ht (by rwa [ofInt_eq, fin_mul_fin]))) hstep
        exact ⟨ha', hadds.congr fun V => by ring⟩) h
    refine ⟨hr', ((adds_addConstant r _).trans hadds).congr fun V => ?_⟩
    rw [evalNode_sum hn hx hlt, toRat_fin, mul_add, ← List.sum_map_mul_left]
    simp only [mul_assoc]
  | posted =>
    rw [hx] at h
    cases h
    refine ⟨hr.addConstant _, (adds_addConstant r q).congr fun V => ?_⟩
    rw [evalNode_posted hn hx, mul_one]
  | stuck =>
    rw [hx] at h
    cases h

/-! ### The nodes and columns below a node -/

section Below

variable {α : Type} [Scalar α] {nodes : Array (Node α)} {id : Nat}

/-- Node `m` lies below node `id` in folds: it is `id`, or lies below the base of a view or an
operand of an affine sum, whatever the coefficients. -/
inductive Below (nodes : Array (Node α)) : Nat → Nat → Prop
  | refl (id : Nat) : Below nodes id id
  | view {id base m : Nat} {scale offset : α} {n : Node α} :
      nodes[id]? = some n → n.expansion = .view base scale offset → Below nodes base m →
      Below nodes id m
  | sum {id m : Nat} {offset : α} {n : Node α} {terms : List (Nat × Int)} {t : Nat × Int} :
      nodes[id]? = some n → n.expansion = .sum terms offset → t ∈ terms → Below nodes t.1 m →
      Below nodes id m

theorem Reaches.toBelow {m : Nat} {c c' : α} (h : Reaches nodes id c m c') :
    Below nodes id m := by
  induction h with
  | refl => exact .refl _
  | view hn hx _ _ ih => exact .view hn hx ih
  | sum hn hx _ ht _ ih => exact .sum hn hx ht ih

/-- Column `v` backs a node below `id`. -/
def ColumnOf (nodes : Array (Node α)) (id v : Nat) : Prop :=
  ∃ m n, Below nodes id m ∧ nodes[m]? = some n ∧ n.expansion = .column v

/-- A fold adds terms on the columns below its node only. -/
theorem addNode_terms (id : Nat) :
    ∀ {r r' : Row α} {coef : α}, r.addNode nodes id coef = .ok r' →
      ∀ t ∈ r'.terms, (∃ t' ∈ r.terms, t'.1 = t.1) ∨ ColumnOf nodes id t.1 := by
  induction id using Nat.strongRecOn with
  | ind id ih =>
  intro r r' coef h t ht
  cases hn : nodes[id]? with
  | none =>
    rw [addNode_none hn] at h
    cases h
  | some n =>
  cases hc : coef == Scalar.zero
  · rw [addNode_eq_expand hn r hc] at h
    cases hx : n.expansion with
    | view base scale offset =>
      rw [hx] at h
      simp only [expand] at h
      split at h
      · rcases ih base ‹_› h t ht with hold | ⟨m, n', hm, hn', hv⟩
        · exact .inl hold
        · exact .inr ⟨m, n', .view hn hx hm, hn', hv⟩
      · cases h
    | column v =>
      rw [hx] at h
      cases h
      rcases mem_addVar ht with heq | hold
      · exact .inr ⟨id, n, .refl id, hn, heq ▸ hx⟩
      · exact .inl hold
    | sum terms offset =>
      rw [hx] at h
      simp only [expand] at h
      -- every step keeps the terms on old columns or below an operand
      refine foldlM_except_of_step
        (fun a : Row α => ∀ t ∈ a.terms, (∃ t' ∈ r.terms, t'.1 = t.1) ∨ ColumnOf nodes id t.1)
        terms (r.addConstant (coef * offset)) (fun t ht => .inl ⟨t, ht, rfl⟩)
        (fun acc u hu hacc acc' hstep => ?_) r' h t ht
      intro t' ht'
      split at hstep
      · rcases ih u.1 ‹_› hstep t' ht' with ⟨t'', ht'', heq⟩ | ⟨m, n', hm, hn', hv⟩
        · exact heq ▸ hacc t'' ht''
        · exact .inr ⟨m, n', .sum hn hx hu hm, hn', hv⟩
      · cases hstep
    | posted =>
      rw [hx] at h
      cases h
      exact .inl ⟨t, ht, rfl⟩
    | stuck =>
      rw [hx] at h
      cases h
  · rw [addNode_zero hn r hc] at h
    cases h
    exact .inl ⟨t, ht, rfl⟩

end Below

end Row

/-- The views and affine sums below node `id` have finite scales and offsets. -/
def FiniteBelow (nodes : Array (Node ERat)) (id : Nat) : Prop :=
  ∀ m n, Row.Below nodes id m → nodes[m]? = some n → n.expansion.Finite

/-! ### Coefficient folding -/

namespace Row

/-- Coefficient folding, read with rationals. In an arena whose operands precede their nodes,
folding `c · id` for a node `id` of it into a row `r`

* fails exactly when it reaches, along non-zero coefficients, a node that is neither a view,
  nor backed by a column, nor an affine sum, nor posted, and then with `unknownNode` or
  `notEncoded`;
* otherwise keeps the terms of `r` merged, and for a finite `c` over views and sums with finite
  scales and offsets adds `c` times the value of `id`: both bounds move down by one constant
  `k`, and `activity_after - activity_before + k = c · value` at every assignment. -/
theorem addNode_exact {nodes : Array (Node ERat)} (hord : OperandsPrecede nodes) {id : Nat}
    (hid : id < nodes.size) (r : Row ERat) (c : ERat) :
    ((∃ e, r.addNode nodes id c = .error e) ↔
        ∃ m c', Reaches nodes id c m c' ∧ (c' == Scalar.zero) = false ∧ ¬Foldable nodes m) ∧
      (∀ e, r.addNode nodes id c = .error e →
        (∃ i, e = .unknownNode i) ∨ ∃ i, e = .notEncoded i) ∧
      ∀ r', r.addNode nodes id c = .ok r' → (r.Merged → r'.Merged) ∧
        ∀ q, c = .fin q → r.FiniteCoefs →
          (∀ m c' n, Reaches nodes id c m c' → (c' == Scalar.zero) = false →
            nodes[m]? = some n → n.expansion.Finite) →
          ∃ k : Rat, r'.lhs = r.lhs - .fin k ∧ r'.rhs = r.rhs - .fin k ∧
            ∀ V, r'.value V - r.value V + k = q * evalNode nodes V id := by
  refine ⟨addNode_error_iff hord id r c hid, fun e h => addNode_error_cases id h,
    fun r' h => ⟨fun hr => addNode_merged id hr h, fun q hq hr hfin => ?_⟩⟩
  subst hq
  obtain ⟨-, k, hl, hr', hv⟩ := (addNode_adds hord id hr hfin h)
  exact ⟨k, hl, hr', fun V => by rw [hv]; ring⟩

end Row

/-- An integer variable `x` with column `0`, and the view `x + 5`. -/
def viewArena : Array (Node ERat) :=
  #[⟨.intVar 0 3 none, .fin 0, .fin 3, false, some (.column 0)⟩,
    ⟨.view .shift 0 (.fin 1) (.fin 5), .fin 5, .fin 8, false, some .affine⟩]

theorem viewArena_operandsPrecede : OperandsPrecede viewArena := by
  intro i n hn c hc
  rcases i with _ | _ | i
  · simp only [viewArena, List.getElem?_toArray, List.getElem?_cons_zero, Option.some.injEq] at hn
    subst hn
    simp [Kind.children] at hc
  · simp only [viewArena, List.getElem?_toArray, List.getElem?_cons_succ, List.getElem?_cons_zero,
      Option.some.injEq] at hn
    subst hn
    simp only [Kind.children, List.mem_singleton] at hc
    omega
  · simp [viewArena] at hn

/-- Folding `1 · (x + 5)` into the empty row. -/
theorem viewArena_fold_exact :
    OperandsPrecede viewArena ∧ 1 < viewArena.size ∧
      ((∃ e, (Row.empty (.fin 0) (.fin 0)).addNode viewArena 1 (.fin 1) = .error e) ↔
          ∃ m c', Row.Reaches viewArena 1 (.fin 1) m c' ∧ (c' == Scalar.zero) = false ∧
            ¬Row.Foldable viewArena m) ∧
      (∀ e, (Row.empty (.fin 0) (.fin 0)).addNode viewArena 1 (.fin 1) = .error e →
        (∃ i, e = .unknownNode i) ∨ ∃ i, e = .notEncoded i) ∧
      ∀ r', (Row.empty (.fin 0) (.fin 0)).addNode viewArena 1 (.fin 1) = .ok r' →
        ((Row.empty (.fin 0) (.fin 0) : Row ERat).Merged → r'.Merged) ∧
        ∀ q, (.fin 1 : ERat) = .fin q → (Row.empty (.fin 0) (.fin 0) : Row ERat).FiniteCoefs →
          (∀ m c' n, Row.Reaches viewArena 1 (.fin 1) m c' → (c' == Scalar.zero) = false →
            viewArena[m]? = some n → n.expansion.Finite) →
          ∃ k : Rat, r'.lhs = (Row.empty (.fin 0) (.fin 0) : Row ERat).lhs - .fin k ∧
            r'.rhs = (Row.empty (.fin 0) (.fin 0) : Row ERat).rhs - .fin k ∧
            ∀ V, r'.value V - (Row.empty (.fin 0) (.fin 0) : Row ERat).value V + k =
              q * evalNode viewArena V 1 :=
  ⟨viewArena_operandsPrecede, by decide,
    Row.addNode_exact viewArena_operandsPrecede (by decide) _ _⟩

/-- Folding `1 · (x + 5)` moves the offset out of both bounds with its sign flipped: at `x = 0`,
`activity_after - activity_before - (rhs_before - rhs_after)` is `-5`, while the view is `5`. -/
theorem viewArena_fold_moves_offset_down :
    ∃ r', (Row.empty (.fin 0) (.fin 0)).addNode viewArena 1 (.fin 1) = .ok r' ∧
      r'.activity #[.fin 0] - (Row.empty (.fin 0) (.fin 0) : Row ERat).activity #[.fin 0] -
          ((Row.empty (.fin 0) (.fin 0) : Row ERat).rhs - r'.rhs) = .fin (-5) ∧
        (.fin 1 : ERat) * .fin (evalNode viewArena #[.fin 0] 1) = .fin 5 := by
  have hc : ((.fin 1 : ERat) == Scalar.zero) = false := by decide
  have h1 : viewArena[1]? =
      some ⟨.view .shift 0 (.fin 1) (.fin 5), .fin 5, .fin 8, false, some .affine⟩ := rfl
  have h0 : viewArena[0]? = some ⟨.intVar 0 3 none, .fin 0, .fin 3, false, some (.column 0)⟩ := rfl
  have hfold : (Row.empty (.fin 0) (.fin 0)).addNode viewArena 1 (.fin 1) =
      .ok (((Row.empty (.fin 0) (.fin 0)).addConstant (.fin 5)).addVar 0 (.fin 1)) := by
    rw [Row.addNode_eq_expand h1 _ hc]
    simp only [Node.expansion, Row.expand]
    rw [dif_pos (by decide), fin_mul_fin, fin_mul_fin, mul_one, one_mul,
      Row.addNode_eq_expand h0 _ hc]
    rfl
  have heval : evalNode viewArena #[.fin 0] 1 = 5 := by
    rw [evalNode_view h1 rfl (by decide), evalNode_column h0 rfl]
    simp
  refine ⟨_, hfold, ?_, ?_⟩
  · with_unfolding_all rfl
  · rw [heval]
    simp

end MipLowering
