import Mathlib
import MipLowering.Proofs.Lowering.EnumeratedDomains
/-!
# Derived bounds are sound

Every node is given value bounds when it is created (`Builder.derive`): a variable its own, a
view `k · x + c` those of `k · x` shifted by `c`, a sum its offset plus the bounds of its
weighted terms, an objective those of its expression, and a relation, logic or flow node
`[0, 1]`. It is marked fractional unless its value is whole whenever its integer variables are.
Read with exact arithmetic these bounds are sound: wherever the variables below a node take
values of their domains, the value of the node lies within its bounds, and it is whole unless the
node is marked fractional (`Builder.encloses_of_derivedBelow`).

The argument is interval arithmetic, one case per kind: `0 · x` is bracketed by `[0, 0]` even for
an unbounded `x`, a non-zero factor maps the bounds of `x` to those of `k · x` with the ends
swapped when `k < 0` (`bracket_mul`), and sums of ends bracket sums of values (`add_le_fin`,
`fin_le_add`). It needs every bound on the way to be a number or an infinity: a sum's offset is
not validated, and a NaN offset, or an infinite one over a term unbounded the other way, gives a
NaN end, which admits no value. So the statement asks for finite offsets of the sums below. Only
the values a node reads take part: a relation, logic or flow node takes a truth value whatever its
operands, so nothing is asked below it (`Builder.encloses_of_derivedAlong`).

## Main definitions

* `MipLowering.Descendant` — the nodes below a node, through operands.
* `MipLowering.ValueBelow` — the nodes whose values the value of a node reads.
* `MipLowering.Encloses` — bounds and a fractional flag that admit a value.
* `MipLowering.Builder.DerivedFrom` — the bounds that `derive` gives a kind in an arena.
* `MipLowering.Kind.Takes` — the value of a node, given the values of its operands.

## Main results

* `MipLowering.Builder.derive_derivedFrom` — `derive` gives derived bounds.
* `MipLowering.Builder.DerivedFrom.congr` — derived bounds read only the bounds of the operands.
* `MipLowering.Builder.encloses_of_derivedAlong`, `MipLowering.Builder.encloses_of_derivedBelow` —
  derived bounds enclose the value of a node.
-/

namespace MipLowering

open ERat

/-! ### Nodes below a node -/

section Descendants

variable {α : Type}

/-- `j` is `id` or lies below it, through the operands of the nodes on the way. -/
inductive Descendant (nodes : Array (Node α)) : Nat → Nat → Prop
  | refl (id : Nat) : Descendant nodes id id
  | child {id c j : Nat} {n : Node α} : nodes[id]? = some n → c ∈ n.kind.children →
      Descendant nodes c j → Descendant nodes id j

variable {nodes : Array (Node α)}

/-- The operands whose values the value of a node reads: the base of a view, the weighted terms
of a sum and the expression of an objective. A relation, logic or flow node takes a truth value
whatever its operands are. -/
def Kind.valueOperands : Kind α → List Nat
  | .view _ base _ _ => [base]
  | .sum vars weights _ => (vars.zip weights).map Prod.fst
  | .objective _ expr => [expr]
  | _ => []

theorem Kind.mem_children_of_mem_valueOperands {k : Kind α} {c : Nat} (h : c ∈ k.valueOperands) :
    c ∈ k.children := by
  cases k <;> simp only [Kind.valueOperands, List.not_mem_nil] at h
  case view => simpa [Kind.children] using h
  case sum vars weights offset =>
    obtain ⟨t, ht, rfl⟩ := List.mem_map.1 h
    exact (List.of_mem_zip ht).1
  case objective => simpa [Kind.children] using h

/-- `j` is `id` or lies below it through value operands: a node whose value the value of `id`
reads. -/
inductive ValueBelow (nodes : Array (Node α)) : Nat → Nat → Prop
  | refl (id : Nat) : ValueBelow nodes id id
  | operand {id c j : Nat} {n : Node α} : nodes[id]? = some n → c ∈ n.kind.valueOperands →
      ValueBelow nodes c j → ValueBelow nodes id j

theorem Descendant.of_child {id c : Nat} {n : Node α} (hn : nodes[id]? = some n)
    (hc : c ∈ n.kind.children) : Descendant nodes id c :=
  .child hn hc (.refl c)

theorem Descendant.trans {i j k : Nat} (h₁ : Descendant nodes i j) (h₂ : Descendant nodes j k) :
    Descendant nodes i k := by
  induction h₁ with
  | refl => exact h₂
  | child hn hc _ ih => exact .child hn hc (ih h₂)

/-- Paths below a node follow the kinds of the nodes only, so an arena that keeps every kind keeps
them. -/
theorem Descendant.mono {nodes' : Array (Node α)}
    (h : ∀ (i : Nat) (n : Node α), nodes[i]? = some n →
      ∃ n' : Node α, nodes'[i]? = some n' ∧ n'.kind = n.kind)
    {i j : Nat} (hd : Descendant nodes i j) : Descendant nodes' i j := by
  induction hd with
  | refl => exact .refl _
  | child hn hc _ ih =>
    obtain ⟨n', hn', hk⟩ := h _ _ hn
    exact .child hn' (hk ▸ hc) ih

theorem ValueBelow.descendant {i j : Nat} (h : ValueBelow nodes i j) : Descendant nodes i j := by
  induction h with
  | refl => exact .refl _
  | operand hn hc _ ih => exact .child hn (Kind.mem_children_of_mem_valueOperands hc) ih

end Descendants

/-! ### Bounds that admit a value -/

theorem ERat.isWhole_fin_iff {q : ℚ} : Scalar.isWhole (fin q) = true ↔ ∃ z : ℤ, q = z := by
  simp only [Scalar.isWhole, isFinite_fin, floor_fin, fin_beq_fin, Bool.true_and,
    decide_eq_true_eq]
  constructor
  · intro h
    exact ⟨q.floor, h.symm⟩
  · rintro ⟨z, rfl⟩
    simp

@[simp] theorem ERat.isWhole_fin_intCast (z : ℤ) : Scalar.isWhole (fin (z : ℚ)) = true :=
  isWhole_fin_iff.2 ⟨z, rfl⟩

theorem ERat.exists_fin_of_isFinite {x : ERat} (h : Scalar.isFinite x = true) : ∃ q, x = fin q := by
  cases x with
  | fin q => exact ⟨q, rfl⟩
  | _ => cases h

/-- The bounds `[lo, hi]` admit `x`, and `x` is whole unless the flag `c` marks it fractional. -/
def Encloses (lo hi : ERat) (c : Bool) (x : ℚ) : Prop :=
  lo ≤ fin x ∧ fin x ≤ hi ∧ (c = false → ∃ z : ℤ, x = z)

namespace Encloses

variable {lo hi lo' hi' : ERat} {c c' : Bool} {x y : ℚ}

/-- A constant, whole exactly when it is an integer. -/
theorem const (q : ℚ) : Encloses (fin q) (fin q) (!Scalar.isWhole (fin q)) q := by
  refine ⟨fin_le_fin.2 le_rfl, fin_le_fin.2 le_rfl, fun h => ?_⟩
  rw [Bool.not_eq_false'] at h
  exact isWhole_fin_iff.1 h

/-- Ends add up: the sum of two values lies between the sums of their ends. -/
theorem add (h : Encloses lo hi c x) (h' : Encloses lo' hi' c' y) :
    Encloses (lo + lo') (hi + hi') (c || c') (x + y) := by
  obtain ⟨hl, hh, hw⟩ := h
  obtain ⟨hl', hh', hw'⟩ := h'
  refine ⟨add_le_fin hl hl', fin_le_add hh hh', fun hc => ?_⟩
  rw [Bool.or_eq_false_iff] at hc
  obtain ⟨z, rfl⟩ := hw hc.1
  obtain ⟨z', rfl⟩ := hw' hc.2
  exact ⟨z + z', by push_cast; ring⟩

/-- `k · x` lies within the scaled bounds of `x`; it is whole when `x` and `k` are. -/
theorem scaled (h : Encloses lo hi c x) (k : ℚ) :
    Encloses (scaledBounds (fin k) lo hi).1 (scaledBounds (fin k) lo hi).2
      (c || !Scalar.isWhole (fin k)) (k * x) := by
  obtain ⟨hl, hh, hw⟩ := h
  have hint : (c || !Scalar.isWhole (fin k)) = false → ∃ z : ℤ, k * x = z := by
    intro hc
    rw [Bool.or_eq_false_iff, Bool.not_eq_false'] at hc
    obtain ⟨z, rfl⟩ := hw hc.1
    obtain ⟨w, rfl⟩ := isWhole_fin_iff.1 hc.2
    exact ⟨w * z, by push_cast; ring⟩
  by_cases hk : k = 0
  · -- `0 · x` is bracketed by `[0, 0]`, whatever the bounds of `x`
    subst hk
    have hsb : scaledBounds (fin 0) lo hi = (fin 0, fin 0) := by
      simp [scaledBounds, zero_eq_fin]
    rw [hsb]
    refine ⟨?_, ?_, hint⟩ <;> simp
  · have hsb : scaledBounds (fin k) lo hi =
        (Scalar.min (fin k * lo) (fin k * hi), Scalar.max (fin k * lo) (fin k * hi)) := by
      simp [scaledBounds, zero_eq_fin, hk]
    rw [hsb]
    obtain ⟨h₁, h₂⟩ := bracket_mul hk hl hh
    exact ⟨h₁, h₂, hint⟩

/-- A truth value lies within `[0, 1]` and is whole. -/
theorem unit (h : x = 0 ∨ x = 1) : Encloses Scalar.zero Scalar.one false x := by
  rw [zero_eq_fin, one_eq_fin]
  rcases h with rfl | rfl
  · exact ⟨fin_le_fin.2 le_rfl, fin_le_fin.2 zero_le_one, fun _ => ⟨0, by simp⟩⟩
  · exact ⟨fin_le_fin.2 zero_le_one, fin_le_fin.2 le_rfl, fun _ => ⟨1, by simp⟩⟩

end Encloses

/-! ### The bounds `derive` gives -/

namespace Builder

variable {α : Type} [Scalar α] {b b' : Builder α}

/-- The bounds and fractional flag that `derive` gives a node of kind `k` in the arena of `b`: a
variable its own bounds, and an integer variable its listed values within them; a view with a
finite scale and offset the scaled bounds of its base, shifted; a sum what `sumBounds` folds from
its offset; an objective the bounds of its expression; any other kind `[0, 1]`, whole. -/
def DerivedFrom (b : Builder α) : Kind α → α → α → Bool → Prop
  | .floatVar l u, lo, hi, c => lo = l ∧ hi = u ∧ c = true
  | .intVar l u vs, lo, hi, c =>
    lo = Scalar.ofInt l ∧ hi = Scalar.ofInt u ∧ c = false ∧
      ∀ D, vs = some D → ∀ v ∈ D, l ≤ v ∧ v ≤ u
  | .view _ base scale offset, lo, hi, c =>
    Scalar.isFinite scale = true ∧ Scalar.isFinite offset = true ∧ ∃ m, b.node base = .ok m ∧
      lo = (scaledBounds scale m.lower m.upper).1 + offset ∧
      hi = (scaledBounds scale m.lower m.upper).2 + offset ∧
      c = (m.continuous || !Scalar.isWhole scale || !Scalar.isWhole offset)
  | .sum vars weights offset, lo, hi, c => b.sumBounds offset (vars.zip weights) = .ok (lo, hi, c)
  | .objective _ expr, lo, hi, c =>
    ∃ m, b.node expr = .ok m ∧ lo = m.lower ∧ hi = m.upper ∧ c = m.continuous
  | .rel .., lo, hi, c | .not _, lo, hi, c | .and .., lo, hi, c | .or .., lo, hi, c
  | .precedence .., lo, hi, c | .noOverlap .., lo, hi, c | .flow .., lo, hi, c =>
    lo = Scalar.zero ∧ hi = Scalar.one ∧ c = false

/-- One term of the fold of `sumBounds`. -/
def sumStep (b : Builder α) (acc : α × α × Bool) (t : Nat × Int) :
    Except (ModelError α) (α × α × Bool) := do
  let n ← b.node t.1
  let (x, y) := scaledBounds (Scalar.ofInt t.2) n.lower n.upper
  pure (acc.1 + x, acc.2.1 + y, acc.2.2 || n.continuous)

theorem sumStep_ok {acc r : α × α × Bool} {t : Nat × Int} (h : b.sumStep acc t = .ok r) :
    ∃ m, b.node t.1 = .ok m ∧
      r = (acc.1 + (scaledBounds (Scalar.ofInt t.2) m.lower m.upper).1,
        acc.2.1 + (scaledBounds (Scalar.ofInt t.2) m.lower m.upper).2, acc.2.2 || m.continuous) := by
  obtain ⟨m, hm, h⟩ := except_bind_ok h
  cases h
  exact ⟨m, hm, rfl⟩

/-- A kind that passes validation is stored with the bounds it derives. -/
theorem derive_derivedFrom {k₀ k : Kind α} {lo hi : α} {c : Bool}
    (h : b.derive k₀ = .ok (k, lo, hi, c)) : b.DerivedFrom k lo hi c := by
  cases k₀ with
  | floatVar l u =>
    obtain ⟨_, -, h⟩ := except_bind_ok h
    cases h
    exact ⟨rfl, rfl, rfl⟩
  | intVar l u values =>
    simp only [derive] at h
    split at h
    · -- a value list is stored sorted without repeats, between its first and last value
      next vs =>
      split at h
      · next lo' hi' hlo hhi =>
        obtain ⟨a, ha, h⟩ := except_bind_ok h
        cases ha
        obtain ⟨_, -, h⟩ := except_bind_ok h
        cases h
        obtain ⟨-, -, hbounds⟩ := sortedValues_bounds hlo hhi
        refine ⟨rfl, rfl, rfl, fun D hD v hv => ?_⟩
        cases hD
        exact hbounds v (mem_sortedValues.1 hv)
      · obtain ⟨_, h, -⟩ := except_bind_ok h
        cases h
    · obtain ⟨a, ha, h⟩ := except_bind_ok h
      cases ha
      obtain ⟨_, -, h⟩ := except_bind_ok h
      cases h
      exact ⟨rfl, rfl, rfl, fun D hD => by cases hD⟩
  | view shape base scale offset =>
    simp only [derive] at h
    split at h
    · obtain ⟨_, h, -⟩ := except_bind_ok h
      cases h
    · next hfin =>
      obtain ⟨m, hm, h⟩ := except_bind_ok h
      cases h
      rw [Bool.not_eq_true, Bool.or_eq_false_iff, Bool.not_eq_false', Bool.not_eq_false'] at hfin
      exact ⟨hfin.1, hfin.2, m, hm, rfl, rfl, rfl⟩
  | sum vars weights offset =>
    obtain ⟨_, -, h⟩ := except_bind_ok h
    obtain ⟨r, hsum, h⟩ := except_bind_ok h
    cases h
    exact hsum
  | flow kind vars values lb ub =>
    obtain ⟨_, -, h⟩ := except_bind_ok h
    split at h
    · obtain ⟨_, -, h⟩ := except_bind_ok h
      cases h
      exact ⟨rfl, rfl, rfl⟩
    · obtain ⟨_, -, h⟩ := except_bind_ok h
      obtain ⟨_, -, h⟩ := except_bind_ok h
      obtain ⟨_, -, h⟩ := except_bind_ok h
      cases h
      exact ⟨rfl, rfl, rfl⟩
  | objective sense expr =>
    obtain ⟨m, hm, h⟩ := except_bind_ok h
    cases h
    exact ⟨m, hm, rfl, rfl, rfl⟩
  | rel r lhs rhs =>
    obtain ⟨_, -, h⟩ := except_bind_ok h
    cases h
    exact ⟨rfl, rfl, rfl⟩
  | not a =>
    obtain ⟨_, -, h⟩ := except_bind_ok h
    cases h
    exact ⟨rfl, rfl, rfl⟩
  | and x y =>
    obtain ⟨_, -, h⟩ := except_bind_ok h
    cases h
    exact ⟨rfl, rfl, rfl⟩
  | or x y =>
    obtain ⟨_, -, h⟩ := except_bind_ok h
    cases h
    exact ⟨rfl, rfl, rfl⟩
  | precedence first second coefs =>
    obtain ⟨_, -, h⟩ := except_bind_ok h
    cases h
    exact ⟨rfl, rfl, rfl⟩
  | noOverlap first second coefs =>
    obtain ⟨_, -, h⟩ := except_bind_ok h
    cases h
    exact ⟨rfl, rfl, rfl⟩

/-! ### Derived bounds read the bounds of the operands only -/

omit [Scalar α] in
theorem node_of_getElem? {id : Nat} {n : Node α} (h : b.nodes[id]? = some n) :
    b.node id = .ok n := by
  unfold node
  rw [h]

/-- `b'` has node `c` of `b`, if `b` has one, with the same bounds and flag. -/
def KeepsBoundsAt (b b' : Builder α) (c : Nat) : Prop :=
  ∀ m, b.nodes[c]? = some m → ∃ m', b'.nodes[c]? = some m' ∧ m'.lower = m.lower ∧
    m'.upper = m.upper ∧ m'.continuous = m.continuous

omit [Scalar α] in
theorem KeepsBoundsAt.node {c : Nat} {m : Node α} (h : KeepsBoundsAt b b' c)
    (hm : b.node c = .ok m) : ∃ m', b'.node c = .ok m' ∧ m'.lower = m.lower ∧
      m'.upper = m.upper ∧ m'.continuous = m.continuous := by
  obtain ⟨m', hm', hl, hh, hc⟩ := h m (node_ok hm)
  exact ⟨m', node_of_getElem? hm', hl, hh, hc⟩

theorem sumStep_congr {acc r : α × α × Bool} {t : Nat × Int} (h : KeepsBoundsAt b b' t.1)
    (hs : b.sumStep acc t = .ok r) : b'.sumStep acc t = .ok r := by
  obtain ⟨m, hm, rfl⟩ := sumStep_ok hs
  obtain ⟨m', hm', hl, hh, hc⟩ := h.node hm
  rw [sumStep, hm', ok_bind_eq, hl, hh, hc]
  rfl

theorem foldlM_sumStep_congr : ∀ (terms : List (Nat × Int)) (acc r : α × α × Bool),
    (∀ t ∈ terms, KeepsBoundsAt b b' t.1) → terms.foldlM (sumStep b) acc = .ok r →
      terms.foldlM (sumStep b') acc = .ok r
  | [], _, _, _, h => h
  | t :: ts, acc, r, hk, h => by
    rw [List.foldlM_cons] at h ⊢
    obtain ⟨acc', hs, h⟩ := except_bind_ok h
    rw [sumStep_congr (hk t List.mem_cons_self) hs, ok_bind_eq]
    exact foldlM_sumStep_congr ts acc' r (fun t ht => hk t (List.mem_cons_of_mem _ ht)) h

/-- Derived bounds stay derived in an arena that keeps the bounds of the operands. -/
theorem DerivedFrom.congr {k : Kind α} {lo hi : α} {c : Bool}
    (h : ∀ x ∈ k.children, KeepsBoundsAt b b' x) (hd : b.DerivedFrom k lo hi c) :
    b'.DerivedFrom k lo hi c := by
  cases k with
  | view shape base scale offset =>
    obtain ⟨hs, ho, m, hm, rfl, rfl, rfl⟩ := hd
    obtain ⟨m', hm', hl, hh, hc⟩ := (h base (by simp [Kind.children])).node hm
    exact ⟨hs, ho, m', hm', by rw [hl, hh], by rw [hl, hh], by rw [hc]⟩
  | sum vars weights offset =>
    -- the terms of the fold are the operands
    exact foldlM_sumStep_congr _ _ _ (fun t ht => h t.1 (List.of_mem_zip ht).1) hd
  | objective sense expr =>
    obtain ⟨m, hm, rfl, rfl, rfl⟩ := hd
    obtain ⟨m', hm', hl, hh, hc⟩ := (h expr (by simp [Kind.children])).node hm
    exact ⟨m', hm', hl.symm, hh.symm, hc.symm⟩
  | _ => exact hd

end Builder

/-! ### The value of a node -/

/-- The value `x` of a node of kind `k` when the nodes take the values `V`: for a variable a value
of its domain (an integer for an integer variable, one of its values if it lists them), for a view
`scale · base + offset`, for a sum `offset + Σ wᵢ · varᵢ`, for an objective the value of its
expression, and for a relation, logic or flow node a truth value. -/
def Kind.Takes (k : Kind ERat) (V : Nat → ℚ) (x : ℚ) : Prop :=
  match k with
  | .floatVar l u => l ≤ fin x ∧ fin x ≤ u
  | .intVar l u vs => ∃ z : ℤ, x = z ∧
    match vs with
    | some D => z ∈ D
    | none => l ≤ z ∧ z ≤ u
  | .view _ base scale offset => x = scale.toRat * V base + offset.toRat
  | .sum vars weights offset =>
    x = offset.toRat + ((vars.zip weights).map fun t => (t.2 : ℚ) * V t.1).sum
  | .objective _ expr => x = V expr
  | .rel .. | .not _ | .and .. | .or .. | .precedence .. | .noOverlap .. | .flow .. => x = 0 ∨ x = 1

/-- A sum has a finite offset; the other kinds ask nothing. -/
def Kind.OffsetFinite {α : Type} [Scalar α] : Kind α → Prop
  | .sum _ _ offset => Scalar.isFinite offset = true
  | _ => True

namespace Builder

variable {b : Builder ERat} {V : Nat → ℚ}

/-- Below node `id` of `b`: every node carries the bounds it derives, every sum has a finite
offset, and every node takes its value in `V`. -/
structure DerivedBelow (b : Builder ERat) (V : Nat → ℚ) (id : Nat) : Prop where
  derived : ∀ j m, Descendant b.nodes id j → b.nodes[j]? = some m →
    b.DerivedFrom m.kind m.lower m.upper m.continuous
  offsets : ∀ j m, Descendant b.nodes id j → b.nodes[j]? = some m → m.kind.OffsetFinite
  takes : ∀ j m, Descendant b.nodes id j → b.nodes[j]? = some m → m.kind.Takes V (V j)

/-- Along the values node `id` reads: every node carries the bounds it derives, every sum has a
finite offset, and every node takes its value in `V`. -/
structure DerivedAlong (b : Builder ERat) (V : Nat → ℚ) (id : Nat) : Prop where
  derived : ∀ j m, ValueBelow b.nodes id j → b.nodes[j]? = some m →
    b.DerivedFrom m.kind m.lower m.upper m.continuous
  offsets : ∀ j m, ValueBelow b.nodes id j → b.nodes[j]? = some m → m.kind.OffsetFinite
  takes : ∀ j m, ValueBelow b.nodes id j → b.nodes[j]? = some m → m.kind.Takes V (V j)

theorem DerivedAlong.operand {id c : Nat} {n : Node ERat} (h : b.DerivedAlong V id)
    (hn : b.nodes[id]? = some n) (hc : c ∈ n.kind.valueOperands) : b.DerivedAlong V c :=
  ⟨fun j m hj => h.derived j m (.operand hn hc hj), fun j m hj => h.offsets j m (.operand hn hc hj),
    fun j m hj => h.takes j m (.operand hn hc hj)⟩

theorem DerivedBelow.along {id : Nat} (h : b.DerivedBelow V id) : b.DerivedAlong V id :=
  ⟨fun j m hj => h.derived j m hj.descendant, fun j m hj => h.offsets j m hj.descendant,
    fun j m hj => h.takes j m hj.descendant⟩

section Kinds

variable {lo hi : ERat} {c : Bool} {x : ℚ}

theorem encloses_floatVar {l u : ERat} (hd : b.DerivedFrom (.floatVar l u) lo hi c)
    (ht : (Kind.floatVar l u).Takes V x) : Encloses lo hi c x := by
  obtain ⟨rfl, rfl, rfl⟩ := hd
  exact ⟨ht.1, ht.2, fun h => by cases h⟩

theorem encloses_intVar {l u : ℤ} {vs : Option (List ℤ)}
    (hd : b.DerivedFrom (.intVar l u vs) lo hi c) (ht : (Kind.intVar l u vs).Takes V x) :
    Encloses lo hi c x := by
  obtain ⟨rfl, rfl, rfl, hvs⟩ := hd
  obtain ⟨z, rfl, hz⟩ := ht
  -- a listed value lies between the bounds derived from the list
  have hb : l ≤ z ∧ z ≤ u := by
    cases vs with
    | some D => exact hvs D rfl z hz
    | none => exact hz
  refine ⟨?_, ?_, fun _ => ⟨z, rfl⟩⟩
  · simpa using hb.1
  · simpa using hb.2

theorem encloses_view {sh : ViewShape} {base : Nat} {scale offset : ERat}
    (hd : b.DerivedFrom (.view sh base scale offset) lo hi c)
    (ht : (Kind.view sh base scale offset).Takes V x)
    (hbase : ∀ m, b.node base = .ok m → Encloses m.lower m.upper m.continuous (V base)) :
    Encloses lo hi c x := by
  obtain ⟨hs, ho, m, hm, rfl, rfl, rfl⟩ := hd
  obtain ⟨s, rfl⟩ := exists_fin_of_isFinite hs
  obtain ⟨o, rfl⟩ := exists_fin_of_isFinite ho
  have hx : x = s * V base + o := by simpa [Kind.Takes] using ht
  rw [hx]
  exact ((hbase m hm).scaled s).add (Encloses.const o)

theorem encloses_foldlM_sumStep :
    ∀ (terms : List (Nat × Int)) (acc r : ERat × ERat × Bool) (p : ℚ),
      (∀ t ∈ terms, ∀ m, b.node t.1 = .ok m → Encloses m.lower m.upper m.continuous (V t.1)) →
      Encloses acc.1 acc.2.1 acc.2.2 p → terms.foldlM (sumStep b) acc = .ok r →
      Encloses r.1 r.2.1 r.2.2 (p + (terms.map fun t => (t.2 : ℚ) * V t.1).sum)
  | [], acc, r, p, _, hp, h => by
    cases h
    simpa using hp
  | t :: ts, acc, r, p, hterms, hp, h => by
    rw [List.foldlM_cons] at h
    obtain ⟨acc', hs, h⟩ := except_bind_ok h
    obtain ⟨m, hm, rfl⟩ := sumStep_ok hs
    -- an integer weight adds nothing fractional
    have hstep := hp.add ((hterms t List.mem_cons_self m hm).scaled t.2)
    simp only [isWhole_fin_intCast, Bool.not_true, Bool.or_false] at hstep
    have := encloses_foldlM_sumStep ts _ r _ (fun t ht => hterms t (List.mem_cons_of_mem _ ht))
      hstep h
    rwa [List.map_cons, List.sum_cons, ← add_assoc]

theorem encloses_sum {vars : List Nat} {weights : List Int} {offset : ERat}
    (hd : b.DerivedFrom (.sum vars weights offset) lo hi c) (hoff : Scalar.isFinite offset = true)
    (ht : (Kind.sum vars weights offset).Takes V x)
    (hvars : ∀ t ∈ vars.zip weights, ∀ m, b.node t.1 = .ok m →
      Encloses m.lower m.upper m.continuous (V t.1)) :
    Encloses lo hi c x := by
  obtain ⟨o, rfl⟩ := exists_fin_of_isFinite hoff
  have hfold : (vars.zip weights).foldlM (sumStep b) (fin o, fin o, !Scalar.isWhole (fin o)) =
      .ok (lo, hi, c) := hd
  have hx : x = o + ((vars.zip weights).map fun t => (t.2 : ℚ) * V t.1).sum := by
    simpa [Kind.Takes] using ht
  rw [hx]
  exact encloses_foldlM_sumStep _ _ _ o hvars (Encloses.const o) hfold

theorem encloses_objective {sense : Sense} {expr : Nat}
    (hd : b.DerivedFrom (.objective sense expr) lo hi c)
    (ht : (Kind.objective sense expr).Takes V x)
    (hexpr : ∀ m, b.node expr = .ok m → Encloses m.lower m.upper m.continuous (V expr)) :
    Encloses lo hi c x := by
  obtain ⟨m, hm, rfl, rfl, rfl⟩ := hd
  have hx : x = V expr := ht
  rw [hx]
  exact hexpr m hm

end Kinds

/-- Derived bounds are sound: along the values a node of an arena reads, where the operands
precede their nodes, every node carries the bounds it derives, every sum has a finite offset and
every node takes its value in `V`, the value of the node lies within its bounds, and is whole
unless the node is marked fractional. By strong induction on the node, one case per kind. -/
theorem encloses_of_derivedAlong (hprec : OperandsPrecede b.nodes) (V : Nat → ℚ) :
    ∀ id n, b.nodes[id]? = some n → b.DerivedAlong V id →
      Encloses n.lower n.upper n.continuous (V id) := by
  intro id
  induction id using Nat.strong_induction_on with
  | _ id ih =>
  intro n hn hd
  -- the operands precede the node, so they are enclosed by induction
  have hkids : ∀ c ∈ n.kind.valueOperands, ∀ m, b.node c = .ok m →
      Encloses m.lower m.upper m.continuous (V c) :=
    fun c hc m hm => ih c (hprec id n hn c (Kind.mem_children_of_mem_valueOperands hc)) m
      (node_ok hm) (hd.operand hn hc)
  have hder := hd.derived id n (.refl id) hn
  have hoff := hd.offsets id n (.refl id) hn
  have ht := hd.takes id n (.refl id) hn
  obtain ⟨k, lo, hi, c, e⟩ := n
  cases k with
  | floatVar l u => exact encloses_floatVar hder ht
  | intVar l u vs => exact encloses_intVar hder ht
  | view sh base scale offset =>
    exact encloses_view hder ht (hkids base (by simp [Kind.valueOperands]))
  | sum vars weights offset =>
    exact encloses_sum hder hoff ht fun t ht => hkids t.1 (List.mem_map_of_mem ht)
  | objective sense expr =>
    exact encloses_objective hder ht (hkids expr (by simp [Kind.valueOperands]))
  | _ =>
    obtain ⟨rfl, rfl, rfl⟩ := hder
    exact Encloses.unit ht

/-- Derived bounds enclose the value of a node when everything below it, not only the values it
reads, carries derived bounds, finite offsets and values. -/
theorem encloses_of_derivedBelow (hprec : OperandsPrecede b.nodes) (V : Nat → ℚ) :
    ∀ id n, b.nodes[id]? = some n → b.DerivedBelow V id →
      Encloses n.lower n.upper n.continuous (V id) :=
  fun id n hn hd => encloses_of_derivedAlong hprec V id n hn hd.along

end Builder

end MipLowering
