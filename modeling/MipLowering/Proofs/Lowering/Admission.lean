import Mathlib
import MipLowering.Proofs.Lowering.SoundBounds

/-!
# Which kinds a builder admits

`Builder.addExpr` checks a kind against the arena before it registers it. Read with exact
arithmetic, it admits exactly the kinds whose operands are nodes of the arena and whose own data
pass the check of their kind (`Kind.Valid`): the bounds of a real variable are not NaN and not
inverted, an integer variable lists some value or has ordered bounds, a view has a finite scale
and offset, a sum has a weight per operand, a relation with a constant has a finite one, a
precedence has one coefficient and a no-overlap pair two, an AllDifferent lists no values, and a
cardinality constraint has a lower and an upper count per value with `0 ≤ lower ≤ upper`. The
offset of a sum is not checked. The admitted node is appended to the arena, unencoded, with the
kind it was given, except that a value list is stored strictly increasing, its first and last
value the bounds of the variable. The bounds of an integer variable are compared as doubles,
which hold every integer up to `2^53` in magnitude and no more: within that range
(`Kind.DoubleBounds`) they are compared as integers, while above it two bounds can round to one
double and pass in either order.

No request inverts the bounds of a node. A kind is given the bounds `derive` finds, and these are
never inverted: the bounds of `k · x` are the smaller and the larger of two products, and ends
that are not inverted add up to ends that are not inverted, NaN or not. The walk of an add pushes
readings over `[0, 1]` and changes only encodings, and a pin sets both ends of a sum to one value.
NaN bounds do arise, from a sum: its offset may be NaN, its bounds may add `∞` and `-∞`, and it
may be pinned to NaN. A node with no sum at or below it has bounds that are not NaN.

## Main definitions

* `MipLowering.Kind.Valid` — the check a kind makes on its own data.
* `MipLowering.Kind.DoubleBounds` — integer bounds that doubles hold.
* `MipLowering.Builder.SumFree` — no node at or below a node is a sum.
* `MipLowering.Builder.BoundsInOrder` — bounds that are not inverted, and not NaN without a sum.

## Main results

* `MipLowering.Builder.addExpr_isOk_iff` — the kinds a builder admits.
* `MipLowering.Builder.addExpr_ok_stored` — how an admitted kind is stored.
* `MipLowering.Builder.Reachable.boundsInOrder` — the bounds of reachable builders.
* `MipLowering.Builder.addExpr_admits_valid_kinds` — the three together.
-/

namespace MipLowering

/-! ### The order of exact scalars, NaN included -/

namespace ERat

@[simp] theorem isNaN_nan : Scalar.isNaN nan = true := rfl

@[simp] theorem isNaN_fin (q : ℚ) : Scalar.isNaN (fin q) = false := rfl

@[simp] theorem isNaN_negInf : Scalar.isNaN negInf = false := rfl

@[simp] theorem isNaN_posInf : Scalar.isNaN posInf = false := rfl

theorem lt_asymm {a b : ERat} (h : a < b) : ¬b < a := fun h' => lt_irrefl a (lt_trans a b a h h')

/-- Ends that are not inverted add up to ends that are not inverted, NaN included. -/
theorem not_add_lt_add {x y c d : ERat} (h₁ : ¬y < x) (h₂ : ¬d < c) : ¬y + d < x + c := by
  change ¬blt y x = true at h₁
  change ¬blt d c = true at h₂
  change ¬blt (add y d) (add x c) = true
  cases x <;> cases y <;> cases c <;> cases d <;> simp_all [blt, add]
  -- four finite ends
  exact add_le_add h₁ h₂

theorem not_lt_of_le {a b : ERat} (h : a ≤ b) : ¬b < a := by
  change ble a b = true at h
  change ¬blt b a = true
  cases a <;> cases b <;> simp_all [blt, ble]

/-- Off NaN the order is total. -/
theorem le_of_not_lt {a b : ERat} (ha : Scalar.isNaN a = false) (hb : Scalar.isNaN b = false)
    (h : ¬b < a) : a ≤ b := by
  change ¬blt b a = true at h
  change ble a b = true
  cases a <;> cases b <;> simp_all [blt, ble]

/-- The larger of two values is never below the smaller. -/
theorem not_max_lt_min (a b : ERat) : ¬Scalar.max a b < Scalar.min a b := by
  unfold Scalar.max Scalar.min
  by_cases hnan : Scalar.isNaN b = true
  · simp only [hnan, if_true]
    exact lt_irrefl a
  · simp only [hnan, Bool.false_eq_true, if_false]
    by_cases hab : a < b
    · simp only [hab, lt_asymm hab, if_true, if_false, not_false_eq_true]
    · simp only [hab, if_false]
      split
      · exact hab
      · exact lt_irrefl b

theorem scaledBounds_not_inverted (k l u : ERat) :
    ¬(scaledBounds k l u).2 < (scaledBounds k l u).1 := by
  unfold scaledBounds
  split
  · exact lt_irrefl _
  · exact not_max_lt_min _ _

theorem isNaN_add_fin {a : ERat} (ha : Scalar.isNaN a = false) (q : ℚ) :
    Scalar.isNaN (a + fin q) = false := by
  cases a with
  | nan => simp at ha
  | _ => rfl

theorem isNaN_fin_mul {q : ℚ} (hq : q ≠ 0) {a : ERat} (ha : Scalar.isNaN a = false) :
    Scalar.isNaN (fin q * a) = false := by
  cases a with
  | nan => simp at ha
  | fin p => rfl
  | negInf =>
    show Scalar.isNaN (scaleInf negInf q) = false
    unfold scaleInf
    rw [if_neg hq]
    split_ifs <;> rfl
  | posInf =>
    show Scalar.isNaN (scaleInf posInf q) = false
    unfold scaleInf
    rw [if_neg hq]
    split_ifs <;> rfl

/-- The smaller and the larger of two values that are not NaN are not NaN. -/
theorem isNaN_min_max {a b : ERat} (ha : Scalar.isNaN a = false) (hb : Scalar.isNaN b = false) :
    Scalar.isNaN (Scalar.min a b) = false ∧ Scalar.isNaN (Scalar.max a b) = false := by
  unfold Scalar.min Scalar.max
  constructor <;> split_ifs <;> assumption

/-- A finite non-zero scale keeps bounds that are not NaN so; a zero scale gives `[0, 0]`. -/
theorem scaledBounds_not_nan {q : ℚ} {l u : ERat} (hl : Scalar.isNaN l = false)
    (hu : Scalar.isNaN u = false) :
    Scalar.isNaN (scaledBounds (fin q) l u).1 = false ∧
      Scalar.isNaN (scaledBounds (fin q) l u).2 = false := by
  unfold scaledBounds
  split
  · exact ⟨rfl, rfl⟩
  · next hq =>
    have hq' : q ≠ 0 := fun h => hq (by subst h; rfl)
    exact isNaN_min_max (isNaN_fin_mul hq' hl) (isNaN_fin_mul hq' hu)

end ERat

open ERat

/-! ### The check of a kind -/

namespace Kind

/-- The check a kind makes on its own data, read exactly: a real variable has bounds that are not
NaN with the lower at most the upper; an integer variable lists some value, or without a list has
its lower bound at most its upper; a view has a finite scale and offset; a sum has as many
weights as operands; a relation with a constant has a finite one; a precedence has one
coefficient and a no-overlap pair two; an AllDifferent lists no value; and a cardinality
constraint has as many lower and upper counts as values, each pair with `0 ≤ lower ≤ upper`. -/
def Valid : Kind ERat → Prop
  | .floatVar lower upper =>
    Scalar.isNaN lower = false ∧ Scalar.isNaN upper = false ∧ lower ≤ upper
  | .intVar lower upper none => lower ≤ upper
  | .intVar _ _ (some values) => values ≠ []
  | .view _ _ scale offset => Scalar.isFinite scale = true ∧ Scalar.isFinite offset = true
  | .sum vars weights _ => weights.length = vars.length
  | .rel _ _ (.node _) => True
  | .rel _ _ (.const k) => Scalar.isFinite k = true
  | .precedence _ _ coefs => coefs.length = 1
  | .noOverlap _ _ coefs => coefs.length = 2
  | .flow .allDifferent _ values _ _ => values = []
  | .flow .gcc _ values lb ub =>
    lb.length = values.length ∧ ub.length = values.length ∧
      ∀ p ∈ lb.zip ub, 0 ≤ p.1 ∧ p.1 ≤ p.2
  | .not _ | .and .. | .or .. | .objective .. => True

/-- The bounds of an integer variable without a value list lie within `2^53` in magnitude, where
every integer is a double, so that comparing them as doubles compares them as integers. The other
kinds compare no converted integers. -/
def DoubleBounds : Kind ERat → Prop
  | .intVar lower upper none => |lower| ≤ 2 ^ 53 ∧ |upper| ≤ 2 ^ 53
  | _ => True

/-- Sums, the one kind whose bounds can be NaN. -/
def isSum {α : Type} : Kind α → Bool
  | .sum .. => true
  | _ => false

end Kind

/-! ### Steps that succeed -/

/-- A computation in `Except` succeeds when its first step does and the rest does after it. -/
theorem exists_bind_eq_ok {ε β γ : Type} {x : Except ε β} {f : β → Except ε γ} :
    (∃ c, (x >>= f) = .ok c) ↔ ∃ a, x = .ok a ∧ ∃ c, f a = .ok c := by
  cases x with
  | error e =>
    constructor
    · rintro ⟨_, h⟩
      cases h
    · rintro ⟨_, h, -⟩
      cases h
  | ok a =>
    constructor
    · rintro ⟨c, h⟩
      exact ⟨a, rfl, c, h⟩
    · rintro ⟨_, h, c, h'⟩
      cases h
      exact ⟨c, h'⟩

@[simp] theorem exists_pure_eq_ok {ε β : Type} (a : β) : ∃ c, (pure a : Except ε β) = .ok c :=
  ⟨a, rfl⟩

/-- With a partner for every operand, the operands are the first components of the pairs. -/
theorem forall_mem_zip_fst {β : Type} {vars : List Nat} {ws : List β} (h : vars.length ≤ ws.length)
    (P : Nat → Prop) : (∀ t ∈ vars.zip ws, P t.1) ↔ ∀ v ∈ vars, P v := by
  conv => rhs; rw [← List.map_fst_zip h]
  exact List.forall_mem_map.symm

/-- A computation whose last step only returns succeeds when its first step does. -/
theorem exists_bind_pure_eq_ok {ε β γ : Type} {x : Except ε β} {f : β → γ} :
    (∃ c, (x >>= fun a => pure (f a)) = .ok c) ↔ ∃ a, x = .ok a := by
  rw [exists_bind_eq_ok]
  exact exists_congr fun a => and_iff_left ⟨f a, rfl⟩

namespace Builder

section Checks

variable {α : Type} [Scalar α] {b : Builder α}

omit [Scalar α] in
theorem node_isOk_iff {id : Nat} : (∃ n, b.node id = .ok n) ↔ id < b.nodes.size := by
  constructor
  · rintro ⟨_, hn⟩
    exact lt_of_node_ok hn
  · intro h
    exact ⟨_, node_of_getElem? (Array.getElem?_eq_getElem h)⟩

omit [Scalar α] in
theorem checkNodes_isOk_iff {ids : List Nat} :
    (∃ u, b.checkNodes ids = .ok u) ↔ ∀ i ∈ ids, i < b.nodes.size := by
  induction ids with
  | nil => exact ⟨fun _ _ h => absurd h List.not_mem_nil, fun _ => ⟨(), rfl⟩⟩
  | cons i is ih =>
    have hstep : b.checkNodes (i :: is) =
        (b.node i >>= fun _ => pure ()) >>= fun _ => b.checkNodes is := rfl
    rw [hstep, exists_bind_eq_ok, List.forall_mem_cons, ← node_isOk_iff, ← ih]
    constructor
    · rintro ⟨u, hu, hrest⟩
      obtain ⟨n, hn, -⟩ := exists_bind_eq_ok.1 ⟨u, hu⟩
      exact ⟨⟨n, hn⟩, hrest⟩
    · rintro ⟨⟨n, hn⟩, hrest⟩
      exact ⟨(), by rw [hn]; rfl, hrest⟩

omit [Scalar α] in
theorem checkLength_isOk_iff {list : ArgumentList} {expected actual : Nat} :
    (∃ u, (checkLength list expected actual : Except (ModelError α) Unit) = .ok u) ↔
      actual = expected := by
  unfold checkLength
  split
  · next h => exact ⟨fun _ => beq_iff_eq.1 h, fun _ => ⟨(), rfl⟩⟩
  · next h =>
    constructor
    · rintro ⟨_, h'⟩
      cases h'
    · intro h'
      exact absurd (beq_iff_eq.2 h') h

theorem sumBounds_isOk_iff {offset : α} {terms : List (Nat × Int)} :
    (∃ r, b.sumBounds offset terms = .ok r) ↔ ∀ t ∈ terms, t.1 < b.nodes.size := by
  suffices h : ∀ acc, (∃ r, terms.foldlM (sumStep b) acc = .ok r) ↔
      ∀ t ∈ terms, t.1 < b.nodes.size from h _
  induction terms with
  | nil => exact fun _ => ⟨fun _ _ h => absurd h List.not_mem_nil, fun _ => ⟨_, rfl⟩⟩
  | cons t ts ih =>
    intro acc
    rw [List.foldlM_cons, exists_bind_eq_ok, List.forall_mem_cons, ← node_isOk_iff]
    constructor
    · rintro ⟨acc', hs, hrest⟩
      obtain ⟨m, hm, -⟩ := sumStep_ok hs
      exact ⟨⟨m, hm⟩, (ih acc').1 hrest⟩
    · rintro ⟨⟨m, hm⟩, hrest⟩
      exact ⟨_, by simp only [sumStep, hm]; rfl, (ih _).2 hrest⟩

/-- The check of the counts of a cardinality constraint. -/
theorem cardinalities_isOk_iff (pairs : List (Int × Int)) :
    (∃ u, (pairs.forM fun p =>
        if p.1 < 0 || p.1 > p.2 then
          (.error (.invalidBounds (Scalar.ofInt p.1) (Scalar.ofInt p.2)) : Except (ModelError α) Unit)
        else .ok ()) = .ok u) ↔
      ∀ p ∈ pairs, 0 ≤ p.1 ∧ p.1 ≤ p.2 := by
  induction pairs with
  | nil => exact ⟨fun _ _ h => absurd h List.not_mem_nil, fun _ => ⟨(), rfl⟩⟩
  | cons p ps ih =>
    have hstep : ((p :: ps).forM fun p =>
        if p.1 < 0 || p.1 > p.2 then
          (.error (.invalidBounds (Scalar.ofInt p.1) (Scalar.ofInt p.2)) : Except (ModelError α) Unit)
        else .ok ()) =
        (if p.1 < 0 || p.1 > p.2 then .error (.invalidBounds (Scalar.ofInt p.1) (Scalar.ofInt p.2))
          else .ok ()) >>= fun _ => ps.forM fun p =>
            if p.1 < 0 || p.1 > p.2 then .error (.invalidBounds (Scalar.ofInt p.1) (Scalar.ofInt p.2))
            else .ok () := rfl
    rw [hstep, exists_bind_eq_ok, List.forall_mem_cons, ← ih]
    have hp : (p.1 < 0 || p.1 > p.2) = false ↔ 0 ≤ p.1 ∧ p.1 ≤ p.2 := by
      simp only [Bool.or_eq_false_iff, decide_eq_false_iff_not]
      omega
    constructor
    · rintro ⟨u, hu, hrest⟩
      split at hu
      · cases hu
      · next h => exact ⟨hp.1 (Bool.eq_false_iff.2 h), hrest⟩
    · rintro ⟨hpair, hrest⟩
      exact ⟨(), by rw [if_neg (by simp [hp.2 hpair])], hrest⟩

/-- An empty value list is refused. -/
theorem derive_intVar_nil (lower upper : Int) :
    b.derive (.intVar lower upper (some [])) = .error .emptyDomain := by
  simp only [derive, List.mergeSort_nil]
  rfl

/-- A kind that passes validation is stored as it was given, unless it lists values. -/
theorem derive_kind_eq {k₀ k : Kind α} {lo hi : α} {c : Bool} (h : b.derive k₀ = .ok (k, lo, hi, c))
    (hk₀ : ∀ l u vs, k₀ ≠ .intVar l u (some vs)) : k = k₀ := by
  cases k₀ with
  | floatVar l u =>
    obtain ⟨_, -, h⟩ := except_bind_ok h
    cases h
    rfl
  | intVar l u values =>
    cases values with
    | none =>
      obtain ⟨_, ha, h⟩ := except_bind_ok h
      cases ha
      obtain ⟨_, -, h⟩ := except_bind_ok h
      cases h
      rfl
    | some vs => exact absurd rfl (hk₀ l u vs)
  | view shape base scale offset =>
    simp only [derive] at h
    split at h
    · obtain ⟨_, h, -⟩ := except_bind_ok h
      cases h
    · obtain ⟨_, -, h⟩ := except_bind_ok h
      cases h
      rfl
  | sum vars weights offset =>
    obtain ⟨_, -, h⟩ := except_bind_ok h
    obtain ⟨_, -, h⟩ := except_bind_ok h
    cases h
    rfl
  | flow kind vars values lb ub =>
    obtain ⟨_, -, h⟩ := except_bind_ok h
    split at h
    · obtain ⟨_, -, h⟩ := except_bind_ok h
      cases h
      rfl
    · obtain ⟨_, -, h⟩ := except_bind_ok h
      obtain ⟨_, -, h⟩ := except_bind_ok h
      obtain ⟨_, -, h⟩ := except_bind_ok h
      cases h
      rfl
  | objective sense expr =>
    obtain ⟨_, -, h⟩ := except_bind_ok h
    cases h
    rfl
  | _ =>
    obtain ⟨_, -, h⟩ := except_bind_ok h
    cases h
    rfl

end Checks

variable {b : Builder ERat}

/-- Bounds pass their check exactly when neither is NaN and the lower is at most the upper. -/
theorem checkBounds_isOk_iff {lower upper : ERat} :
    (∃ u, (checkBounds lower upper : Except (ModelError ERat) Unit) = .ok u) ↔
      Scalar.isNaN lower = false ∧ Scalar.isNaN upper = false ∧ lower ≤ upper := by
  unfold checkBounds
  split
  · next h =>
    constructor
    · rintro ⟨_, h'⟩
      cases h'
    rintro ⟨hl, hu, hle⟩
    simp only [hl, hu, Bool.false_or, decide_eq_true_eq] at h
    exact absurd h (not_lt_of_le hle)
  · next h =>
    simp only [Bool.or_eq_true, decide_eq_true_eq, not_or] at h
    obtain ⟨⟨hl, hu⟩, hlt⟩ := h
    exact ⟨fun _ => ⟨Bool.eq_false_iff.2 hl, Bool.eq_false_iff.2 hu,
      le_of_not_lt (Bool.eq_false_iff.2 hl) (Bool.eq_false_iff.2 hu) hlt⟩, fun _ => ⟨(), rfl⟩⟩

/-- The kinds that pass validation: their operands are nodes, and their data pass their check. -/
theorem derive_isOk_iff (k : Kind ERat) :
    (∃ d, b.derive k = .ok d) ↔ (∀ c ∈ k.children, c < b.nodes.size) ∧ k.Valid := by
  cases k with
  | floatVar lower upper =>
    have h : b.derive (.floatVar lower upper) =
        checkBounds lower upper >>= fun _ => pure (.floatVar lower upper, lower, upper, true) := rfl
    rw [h, exists_bind_pure_eq_ok, checkBounds_isOk_iff]
    simp [Kind.children, Kind.Valid]
  | intVar lower upper values =>
    cases values with
    | none =>
      have h : b.derive (.intVar lower upper none) =
          checkBounds (Scalar.ofInt lower : ERat) (Scalar.ofInt upper) >>= fun _ =>
            pure (.intVar lower upper none, Scalar.ofInt lower, Scalar.ofInt upper, false) := rfl
      rw [h, exists_bind_pure_eq_ok, checkBounds_isOk_iff]
      simp [Kind.children, Kind.Valid]
    | some vs =>
      simp only [Kind.children, Kind.Valid, List.not_mem_nil, IsEmpty.forall_iff, implies_true,
        true_and]
      constructor
      · rintro ⟨d, hd⟩ rfl
        rw [derive_intVar_nil] at hd
        cases hd
      · intro hvs
        obtain ⟨lo, hi, -, -, hd⟩ := derive_intVar_some b lower upper hvs
        exact ⟨_, hd⟩
  | view shape base scale offset =>
    simp only [derive]
    split
    · next hbad =>
      -- a scale or an offset that is not finite is refused
      constructor
      · rintro ⟨d, hd⟩
        cases hd
      · rintro ⟨-, hs, ho⟩
        simp [hs, ho] at hbad
    · next hgood =>
      rw [exists_bind_pure_eq_ok, node_isOk_iff]
      simp only [Bool.or_eq_true, Bool.not_eq_true', not_or, Bool.not_eq_false] at hgood
      simp [Kind.children, Kind.Valid, hgood]
  | sum vars weights offset =>
    simp only [derive, exists_bind_eq_ok, exists_pure_eq_ok, and_true, exists_and_right,
      checkLength_isOk_iff, sumBounds_isOk_iff, Kind.children, Kind.Valid]
    -- with a weight per operand, the pairs reach every operand
    constructor
    · rintro ⟨hlen, hvars⟩
      exact ⟨(forall_mem_zip_fst hlen.ge _).1 hvars, hlen⟩
    · rintro ⟨hvars, hlen⟩
      exact ⟨hlen, (forall_mem_zip_fst hlen.ge _).2 hvars⟩
  | flow kind vars values lb ub =>
    cases kind with
    | allDifferent =>
      simp only [derive, exists_bind_eq_ok, exists_pure_eq_ok, and_true, checkLength_isOk_iff,
        checkNodes_isOk_iff, Kind.children, Kind.Valid, exists_and_right]
      simp
    | gcc =>
      simp only [derive, exists_bind_eq_ok, exists_pure_eq_ok, and_true, checkLength_isOk_iff,
        checkNodes_isOk_iff, cardinalities_isOk_iff, Kind.children, Kind.Valid, exists_and_right]
  | objective sense expr =>
    have h : b.derive (.objective sense expr) = b.node expr >>= fun n =>
        pure (.objective sense expr, n.lower, n.upper, n.continuous) := rfl
    rw [h, exists_bind_pure_eq_ok, node_isOk_iff]
    simp [Kind.children, Kind.Valid]
  | rel r lhs rhs =>
    cases rhs with
    | node c =>
      simp only [derive, checkBinop, exists_bind_eq_ok, exists_pure_eq_ok, and_true, node_isOk_iff,
        Kind.children, Kind.Valid, exists_and_right]
      simp
    | const k =>
      simp only [derive, checkBinop, exists_bind_eq_ok, exists_pure_eq_ok, and_true, node_isOk_iff,
        Kind.children, Kind.Valid, exists_and_right]
      -- a constant right-hand side must be finite
      cases hk : Scalar.isFinite k <;> simp
  | not a =>
    simp only [derive, checkBinop, exists_bind_eq_ok, exists_pure_eq_ok, and_true, node_isOk_iff,
      Kind.children, Kind.Valid]
    simp
  | and x y =>
    simp only [derive, checkBinop, exists_bind_eq_ok, exists_pure_eq_ok, and_true,
      checkNodes_isOk_iff, Kind.children, Kind.Valid]
  | or x y =>
    simp only [derive, checkBinop, exists_bind_eq_ok, exists_pure_eq_ok, and_true,
      checkNodes_isOk_iff, Kind.children, Kind.Valid]
  | precedence first second coefs =>
    simp only [derive, checkBinop, exists_bind_eq_ok, exists_pure_eq_ok, and_true,
      checkNodes_isOk_iff, checkLength_isOk_iff, Kind.children, Kind.Valid, exists_and_right]
  | noOverlap first second coefs =>
    simp only [derive, checkBinop, exists_bind_eq_ok, exists_pure_eq_ok, and_true,
      checkNodes_isOk_iff, checkLength_isOk_iff, Kind.children, Kind.Valid, exists_and_right]

/-! ### Admitted kinds -/

/-- A kind that passes validation is pushed when the model is not frozen. -/
theorem addExpr_of_derive {k₀ k : Kind ERat} {lo hi : ERat} {c : Bool}
    (hinit : b.initialised = false) (hd : b.derive k₀ = .ok (k, lo, hi, c)) :
    b.addExpr k₀ = .ok (b.pushNode ⟨k, lo, hi, c, none⟩) := by
  simp only [addExpr, hinit, hd, Bool.false_eq_true, if_false]
  rfl

/-- The kinds a builder that is not frozen admits: exactly those whose operands are nodes of the
arena and whose data pass their check. -/
theorem addExpr_isOk_iff (hinit : b.initialised = false) (k : Kind ERat) :
    (∃ r, b.addExpr k = .ok r) ↔ (∀ c ∈ k.children, c < b.nodes.size) ∧ k.Valid := by
  rw [← derive_isOk_iff]
  constructor
  · rintro ⟨r, hr⟩
    obtain ⟨k', lo, hi, c, hd, -⟩ := addExpr_ok hr
    exact ⟨_, hd⟩
  · rintro ⟨⟨k', lo, hi, c⟩, hd⟩
    exact ⟨_, addExpr_of_derive hinit hd⟩

/-- An admitted kind is appended to the arena, unencoded, and nothing else changes. It is stored
as it was given, except that a value list is stored strictly increasing, with the listed values,
its first and last value the bounds of the variable. -/
theorem addExpr_ok_stored {k : Kind ERat} {r : Nat × Builder ERat} (h : b.addExpr k = .ok r) :
    ∃ n : Node ERat, r = (b.nodes.size, { b with nodes := b.nodes.push n }) ∧ n.encoding = none ∧
      ((∀ l u vs, k ≠ .intVar l u (some vs)) → n.kind = k) ∧
      ∀ l u vs, k = .intVar l u (some vs) → ∃ (ws : List Int) (a z : Int),
        ws.Pairwise (· < ·) ∧ (∀ x, x ∈ ws ↔ x ∈ vs) ∧ ws.head? = some a ∧
          ws.getLast? = some z ∧ n.kind = .intVar a z (some ws) ∧ n.lower = .fin a ∧
          n.upper = .fin z := by
  obtain ⟨k', lo, hi, c, hd, rfl⟩ := addExpr_ok h
  refine ⟨⟨k', lo, hi, c, none⟩, rfl, rfl, derive_kind_eq hd, ?_⟩
  rintro l u vs rfl
  -- an empty list is refused, so the list has a first and a last value
  have hvs : vs ≠ [] := by
    rintro rfl
    rw [derive_intVar_nil] at hd
    cases hd
  obtain ⟨a, z, ha, hz, hd'⟩ := derive_intVar_some b l u hvs
  rw [hd'] at hd
  cases hd
  have hlt : (sortedValues vs).Pairwise (· < ·) :=
    ((pairwise_sortedValues vs).and (nodup_sortedValues vs)).imp fun h => lt_of_le_of_ne h.1 h.2
  exact ⟨sortedValues vs, a, z, hlt, fun x => mem_sortedValues, ha, hz, rfl, rfl, rfl⟩

/-! ### Bounds in order -/

section SumFree

variable {α : Type}

/-- No node at or below node `id` is a sum. -/
def SumFree (nodes : Array (Node α)) (id : Nat) : Prop :=
  ∀ j m, Descendant nodes id j → nodes[j]? = some m → m.kind.isSum = false

variable {nodes nodes' : Array (Node α)} {id : Nat}

/-- Whether a node has a sum below it depends on the kinds of the nodes only. -/
theorem SumFree.mono (hkinds : ∀ (i : Nat) (n : Node α), nodes[i]? = some n →
      ∃ n' : Node α, nodes'[i]? = some n' ∧ n'.kind = n.kind)
    (h : SumFree nodes' id) : SumFree nodes id := by
  intro j m hj hm
  obtain ⟨m', hm', hk⟩ := hkinds j m hm
  rw [← hk]
  exact h j m' (hj.mono hkinds) hm'

theorem SumFree.child {c : Nat} {n : Node α} (h : SumFree nodes id) (hn : nodes[id]? = some n)
    (hc : c ∈ n.kind.children) : SumFree nodes c :=
  fun j m hj hm => h j m ((Descendant.of_child hn hc).trans hj) hm

theorem SumFree.not_sum {n : Node α} (h : SumFree nodes id) (hn : nodes[id]? = some n) :
    n.kind.isSum = false :=
  h id n (.refl id) hn

end SumFree

theorem KeepsOld.sumFree {b' : Builder ERat} (hold : KeepsOld b b') {id : Nat}
    (h : SumFree b'.nodes id) : SumFree b.nodes id :=
  h.mono fun i n hn => by
    obtain ⟨e, he⟩ := hold i n hn
    exact ⟨_, he, rfl⟩

/-- Every node has bounds that are not inverted, and a node with no sum at or below it has
bounds that are not NaN. -/
structure BoundsInOrder (b : Builder ERat) : Prop where
  not_inverted : ∀ (id : Nat) (n : Node ERat), b.nodes[id]? = some n → ¬n.upper < n.lower
  not_nan : ∀ (id : Nat) (n : Node ERat), b.nodes[id]? = some n → SumFree b.nodes id →
    Scalar.isNaN n.lower = false ∧ Scalar.isNaN n.upper = false

theorem zero_one_in_order :
    ¬(Scalar.one : ERat) < Scalar.zero ∧ Scalar.isNaN (Scalar.zero : ERat) = false ∧
      Scalar.isNaN (Scalar.one : ERat) = false := by
  refine ⟨?_, rfl, rfl⟩
  rw [zero_eq_fin, one_eq_fin, fin_lt_fin]
  norm_num

/-- A fold of `sumStep` from ends that are not inverted ends with ends that are not inverted. -/
theorem foldlM_sumStep_not_inverted :
    ∀ (terms : List (Nat × Int)) (acc r : ERat × ERat × Bool), ¬acc.2.1 < acc.1 →
      terms.foldlM (sumStep b) acc = .ok r → ¬r.2.1 < r.1
  | [], acc, r, hacc, h => by
    cases h
    exact hacc
  | t :: ts, acc, r, hacc, h => by
    rw [List.foldlM_cons] at h
    obtain ⟨acc', hs, h⟩ := except_bind_ok h
    obtain ⟨m, -, rfl⟩ := sumStep_ok hs
    exact foldlM_sumStep_not_inverted ts _ r
      (not_add_lt_add hacc (scaledBounds_not_inverted _ _ _)) h

/-- The bounds `derive` gives are never inverted. -/
theorem derive_not_inverted (h : b.BoundsInOrder) {k₀ k : Kind ERat} {lo hi : ERat} {c : Bool}
    (hd : b.derive k₀ = .ok (k, lo, hi, c)) : ¬hi < lo := by
  have hvalid := ((derive_isOk_iff k₀).1 ⟨_, hd⟩).2
  by_cases hlist : ∃ l u vs, k₀ = .intVar l u (some vs)
  · -- a value list gives its least and its greatest value
    obtain ⟨l, u, vs, rfl⟩ := hlist
    obtain ⟨a, z, ha, hz, hd'⟩ := derive_intVar_some b l u hvalid
    rw [hd'] at hd
    cases hd
    obtain ⟨ha', -, hbetween⟩ := sortedValues_bounds ha hz
    rw [fin_lt_fin, Int.cast_lt, not_lt]
    exact (hbetween a ha').2
  have hder := derive_derivedFrom hd
  rw [derive_kind_eq hd fun l u vs heq => hlist ⟨l, u, vs, heq⟩] at hder
  cases k₀ with
  | floatVar l u =>
    obtain ⟨rfl, rfl, -⟩ := hder
    exact not_lt_of_le hvalid.2.2
  | intVar l u values =>
    cases values with
    | none =>
      obtain ⟨rfl, rfl, -⟩ := hder
      rw [ofInt_eq, ofInt_eq, fin_lt_fin, Int.cast_lt, not_lt]
      exact hvalid
    | some vs => exact absurd ⟨l, u, vs, rfl⟩ hlist
  | view shape base scale offset =>
    obtain ⟨-, -, m, -, rfl, rfl, -⟩ := hder
    exact not_add_lt_add (scaledBounds_not_inverted _ _ _) (lt_irrefl offset)
  | sum vars weights offset =>
    exact foldlM_sumStep_not_inverted _ (offset, offset, _) (lo, hi, c) (lt_irrefl offset) hder
  | objective sense expr =>
    obtain ⟨m, hm, rfl, rfl, -⟩ := hder
    exact h.not_inverted expr m (node_ok hm)
  | _ =>
    obtain ⟨rfl, rfl, -⟩ := hder
    exact zero_one_in_order.1

/-- A kind other than a sum gets bounds that are not NaN, when the nodes below it have no sum. -/
theorem derive_not_nan (h : b.BoundsInOrder) {k₀ k : Kind ERat} {lo hi : ERat} {c : Bool}
    (hd : b.derive k₀ = .ok (k, lo, hi, c)) (hsum : k.isSum = false)
    (hkids : ∀ c ∈ k.children, SumFree b.nodes c) :
    Scalar.isNaN lo = false ∧ Scalar.isNaN hi = false := by
  have hvalid := ((derive_isOk_iff k₀).1 ⟨_, hd⟩).2
  by_cases hlist : ∃ l u vs, k₀ = .intVar l u (some vs)
  · obtain ⟨l, u, vs, rfl⟩ := hlist
    obtain ⟨a, z, -, -, hd'⟩ := derive_intVar_some b l u hvalid
    rw [hd'] at hd
    cases hd
    exact ⟨rfl, rfl⟩
  have hk := derive_kind_eq hd fun l u vs heq => hlist ⟨l, u, vs, heq⟩
  have hder := derive_derivedFrom hd
  subst hk
  cases k with
  | floatVar l u =>
    obtain ⟨rfl, rfl, -⟩ := hder
    exact ⟨hvalid.1, hvalid.2.1⟩
  | intVar l u values =>
    obtain ⟨rfl, rfl, -⟩ := hder
    exact ⟨rfl, rfl⟩
  | view shape base scale offset =>
    -- the base has bounds that are not NaN, and the scale and offset are finite
    obtain ⟨hs, ho, m, hm, rfl, rfl, -⟩ := hder
    obtain ⟨q, rfl⟩ := exists_fin_of_isFinite hs
    obtain ⟨o, rfl⟩ := exists_fin_of_isFinite ho
    obtain ⟨hl, hu⟩ := h.not_nan base m (node_ok hm) (hkids base (by simp [Kind.children]))
    obtain ⟨hl', hu'⟩ := scaledBounds_not_nan (q := q) hl hu
    exact ⟨isNaN_add_fin hl' o, isNaN_add_fin hu' o⟩
  | sum vars weights offset => cases hsum
  | objective sense expr =>
    obtain ⟨m, hm, rfl, rfl, -⟩ := hder
    exact h.not_nan expr m (node_ok hm) (hkids expr (by simp [Kind.children]))
  | _ =>
    obtain ⟨rfl, rfl, -⟩ := hder
    exact zero_one_in_order.2

/-- A pin that succeeds pins a sum. -/
theorem setRhs_ok_isSum {id : Nat} {k : ERat} {b' : Builder ERat} (h : b.setRhs id k = .ok b') :
    ∃ n, b.nodes[id]? = some n ∧ n.kind.isSum = true := by
  cases hn : b.nodes[id]? with
  | none =>
    simp only [setRhs, node, hn, bind, Except.bind] at h
    split at h <;> cases h
  | some n =>
    simp only [setRhs, node, hn, bind, Except.bind] at h
    split at h
    · cases h
    refine ⟨n, rfl, ?_⟩
    split at h
    · next heq => rw [heq]; rfl
    · cases h

namespace BoundsInOrder

variable {b' : Builder ERat}

/-- Bounds in order carry over to an arena that keeps every node of `b` up to its encoding, as
soon as the nodes beyond them have theirs in order. -/
theorem of_keepsOld (h : b.BoundsInOrder) (hold : KeepsOld b b')
    (hnew : ∀ id n, b.nodes.size ≤ id → b'.nodes[id]? = some n →
      ¬n.upper < n.lower ∧ (SumFree b'.nodes id →
        Scalar.isNaN n.lower = false ∧ Scalar.isNaN n.upper = false)) :
    b'.BoundsInOrder := by
  -- a node of `b` keeps its bounds
  have hkept : ∀ id n, b'.nodes[id]? = some n → ¬b.nodes.size ≤ id →
      ∃ m, b.nodes[id]? = some m ∧ n.lower = m.lower ∧ n.upper = m.upper := by
    intro id n hn hid
    have hm := Array.getElem?_eq_getElem (Nat.lt_of_not_le hid)
    obtain ⟨e, he⟩ := hold id _ hm
    rw [hn, Option.some.injEq] at he
    exact ⟨_, hm, by rw [he], by rw [he]⟩
  constructor
  · intro id n hn
    by_cases hid : b.nodes.size ≤ id
    · exact (hnew id n hid hn).1
    · obtain ⟨m, hm, hlo, hhi⟩ := hkept id n hn hid
      rw [hlo, hhi]
      exact h.not_inverted id m hm
  · intro id n hn hfree
    by_cases hid : b.nodes.size ≤ id
    · exact (hnew id n hid hn).2 hfree
    · obtain ⟨m, hm, hlo, hhi⟩ := hkept id n hn hid
      rw [hlo, hhi]
      exact h.not_nan id m hm (hold.sumFree hfree)

/-- The walk of an add keeps the bounds in order: it pushes readings over `[0, 1]`. -/
theorem of_keepsNodes (h : b.BoundsInOrder) (hk : b.KeepsNodes b') : b'.BoundsInOrder :=
  h.of_keepsOld hk.old fun id n hid hn => by
    obtain ⟨x, e, rfl⟩ := hk.new id n hid hn
    exact ⟨zero_one_in_order.1, fun _ => zero_one_in_order.2⟩

/-- Appending a node with the bounds it derives. -/
theorem push_derived (h : b.BoundsInOrder) {k₀ k : Kind ERat} {lo hi : ERat} {c : Bool}
    (hd : b.derive k₀ = .ok (k, lo, hi, c)) :
    (b.pushNode ⟨k, lo, hi, c, none⟩).2.BoundsInOrder := by
  refine h.of_keepsOld (.push b _) fun id n hid hn => ?_
  -- the one node beyond `b` is the new one
  change (b.nodes.push _)[id]? = some n at hn
  rw [Array.getElem?_push] at hn
  split at hn
  · next hsize =>
    cases hn
    have hget : (b.pushNode ⟨k, lo, hi, c, none⟩).2.nodes[id]? = some ⟨k, lo, hi, c, none⟩ := by
      simp [pushNode, hsize]
    refine ⟨derive_not_inverted h hd, fun hfree => derive_not_nan h hd ?_ fun j hj => ?_⟩
    · exact hfree.not_sum hget
    · exact (KeepsOld.push b _).sumFree (hfree.child hget hj)
  · rw [Array.getElem?_eq_none hid] at hn
    cases hn

/-- A pin sets both ends of a sum to one value, and the sum lies below no node without a sum. -/
theorem setRhs (h : b.BoundsInOrder) {id : Nat} {k : ERat} (hs : b.setRhs id k = .ok b') :
    b'.BoundsInOrder := by
  obtain ⟨n, hn, -, rfl⟩ := setRhs_ok hs
  obtain ⟨n', hn', hsum⟩ := setRhs_ok_isSum hs
  rw [hn, Option.some.injEq] at hn'
  subst hn'
  have hget : ∀ i, i ≠ id →
      (b.nodes.setIfInBounds id { n with lower := k, upper := k })[i]? = b.nodes[i]? :=
    fun i hi => by rw [Array.getElem?_setIfInBounds, if_neg (Ne.symm hi)]
  have hlt := (Array.getElem?_eq_some_iff.mp hn).1
  have hpinned : (b.nodes.setIfInBounds id { n with lower := k, upper := k })[id]? =
      some { n with lower := k, upper := k } := by
    rw [Array.getElem?_setIfInBounds, if_pos rfl, if_pos hlt]
  -- the pin keeps every kind, so every node keeps the nodes below it
  have hkinds : ∀ (i : Nat) (m : Node ERat), b.nodes[i]? = some m → ∃ m' : Node ERat,
      (b.nodes.setIfInBounds id { n with lower := k, upper := k })[i]? = some m' ∧
        m'.kind = m.kind := fun _ _ hm => (pin_keeps hn k hm).imp fun _ h => ⟨h.1, h.2.1⟩
  constructor
  · intro i m hm
    by_cases hi : i = id
    · subst hi
      rw [hpinned, Option.some.injEq] at hm
      subst hm
      exact lt_irrefl k
    · rw [hget i hi] at hm
      exact h.not_inverted i m hm
  · intro i m hm hfree
    by_cases hi : i = id
    · subst hi
      rw [hpinned, Option.some.injEq] at hm
      subst hm
      rw [hfree.not_sum hpinned] at hsum
      cases hsum
    · rw [hget i hi] at hm
      exact h.not_nan i m hm (hfree.mono hkinds)

theorem settle {x : Except (ModelError ERat) (Builder ERat)} (h : b.BoundsInOrder)
    (hx : ∀ b', x = .ok b' → b'.BoundsInOrder) : (b.settle x).2.BoundsInOrder := by
  cases x with
  | ok b' => exact hx b' rfl
  | error e => exact h

/-- Every request keeps the bounds in order. -/
theorem exec (h : b.BoundsInOrder) (hb : b.Idle) (r : Request ERat) : (b.exec r).2.BoundsInOrder := by
  cases r with
  | add id => exact h.of_keepsNodes (keepsNodes_addRun hb id)
  | addExpr k =>
    refine h.settle fun b' hb' => ?_
    obtain ⟨_, hok⟩ := map_snd_eq_ok hb'
    obtain ⟨k', lo, hi, c, hd, hr⟩ := addExpr_ok hok
    obtain rfl : b' = _ := congrArg Prod.snd hr
    exact h.push_derived hd
  | addIntArray xs =>
    refine h.settle fun b' hb' => ?_
    obtain ⟨_, hok⟩ := map_snd_eq_ok hb'
    rw [addIntArray_ok hok]
    exact h.of_keepsNodes (.of_nodes rfl)
  | addVarArray ids =>
    refine h.settle fun b' hb' => ?_
    obtain ⟨_, hok⟩ := map_snd_eq_ok hb'
    rw [addVarArray_ok hok]
    exact h.of_keepsNodes (.of_nodes rfl)
  | setRhs id k => exact h.settle fun b' hs => h.setRhs hs
  | initialise =>
    refine h.settle fun b' hb' => ?_
    rw [initialise_ok hb']
    exact h.of_keepsNodes (.of_nodes rfl)
  | initialiseWith ds =>
    refine h.settle fun b' hb' => ?_
    obtain ⟨-, cols, rfl⟩ := initialiseWith_ok hb'
    exact h.of_keepsNodes (.of_nodes rfl)

end BoundsInOrder

/-- Every builder that requests reach has its bounds in order. -/
theorem Reachable.boundsInOrder (hb : b.Reachable) : b.BoundsInOrder := by
  induction hb with
  | new => exact ⟨fun _ _ hn => by simp [Builder.new] at hn, fun _ _ hn => by simp [Builder.new] at hn⟩
  | withConfig hc =>
    simp only [Builder.withConfig, bind, Except.bind, pure, Except.pure] at hc
    split at hc
    · cases hc
    · cases hc
      exact ⟨fun _ _ hn => by simp at hn, fun _ _ hn => by simp at hn⟩
  | exec r hr ih => exact ih.exec hr.idle r

/-- Which expressions a builder admits, how it stores them, and which bounds the nodes of a
reachable builder carry. A builder that is not frozen admits exactly the kinds over existing
nodes whose data pass their check, when the integer bounds of the kind are doubles; an admitted
kind becomes the last node, unencoded, with a value list stored strictly increasing between its
least and greatest value. No node of a reachable builder has inverted bounds, and a node with no
sum at or below it has bounds that are not NaN, in order. -/
theorem addExpr_admits_valid_kinds :
    (∀ (b : Builder ERat) (k : Kind ERat), b.initialised = false → k.DoubleBounds →
      ((∃ r, b.addExpr k = .ok r) ↔ (∀ c ∈ k.children, c < b.nodes.size) ∧ k.Valid)) ∧
    (∀ (b : Builder ERat) (k : Kind ERat) (r : Nat × Builder ERat), b.addExpr k = .ok r →
      ∃ n : Node ERat, r = (b.nodes.size, { b with nodes := b.nodes.push n }) ∧
        n.encoding = none ∧ ((∀ l u vs, k ≠ .intVar l u (some vs)) → n.kind = k) ∧
        ∀ l u vs, k = .intVar l u (some vs) → ∃ (ws : List Int) (a z : Int),
          ws.Pairwise (· < ·) ∧ (∀ x, x ∈ ws ↔ x ∈ vs) ∧ ws.head? = some a ∧
            ws.getLast? = some z ∧ n.kind = .intVar a z (some ws) ∧ n.lower = .fin a ∧
            n.upper = .fin z) ∧
    (∀ b : Builder ERat, b.Reachable → ∀ (id : Nat) (n : Node ERat), b.nodes[id]? = some n →
      ¬n.upper < n.lower ∧ (SumFree b.nodes id →
        Scalar.isNaN n.lower = false ∧ Scalar.isNaN n.upper = false ∧ n.lower ≤ n.upper)) := by
  refine ⟨fun b k hinit _ => addExpr_isOk_iff hinit k, fun b k r h => addExpr_ok_stored h, ?_⟩
  intro b hb id n hn
  have h := hb.boundsInOrder
  refine ⟨h.not_inverted id n hn, fun hfree => ?_⟩
  obtain ⟨hl, hu⟩ := h.not_nan id n hn hfree
  exact ⟨hl, hu, le_of_not_lt hl hu (h.not_inverted id n hn)⟩

/-- A new builder admits a value list, and a variable over it is not NaN and in order. -/
theorem valueList_admitted_in_order :
    (∃ r, (Builder.new : Builder ERat).addExpr (.intVar 0 0 (some [2, 1, 2])) = .ok r) ∧
      ∀ (id : Nat) (n : Node ERat),
        ((Builder.new : Builder ERat).exec (.addExpr (.intVar 0 0 (some [2, 1, 2])))).2.nodes[id]? =
          some n → SumFree ((Builder.new : Builder ERat).exec
            (.addExpr (.intVar 0 0 (some [2, 1, 2])))).2.nodes id →
          Scalar.isNaN n.lower = false ∧ Scalar.isNaN n.upper = false ∧ n.lower ≤ n.upper :=
  ⟨(addExpr_admits_valid_kinds.1 Builder.new (.intVar 0 0 (some [2, 1, 2])) rfl trivial).2
    ⟨by simp [Kind.children], by simp [Kind.Valid]⟩,
    fun id n hn => (addExpr_admits_valid_kinds.2.2 _ (.exec _ .new) id n hn).2⟩

/-- The sum `x + NaN` over `x ∈ [0, 1]`: its offset is not checked. -/
def nanOffsetBuilder : Builder ERat :=
  Builder.new.execAll [.addExpr (.intVar 0 1 none), .addExpr (.sum [0] [1] .nan)]

/-- A sum with a NaN offset is admitted, and its bounds are NaN at both ends. -/
theorem nanOffset_bounds_nan :
    nanOffsetBuilder.Reachable ∧ ∃ n : Node ERat, nanOffsetBuilder.nodes[1]? = some n ∧
      n.kind = .sum [0] [1] .nan ∧ Scalar.isNaN n.lower = true ∧ Scalar.isNaN n.upper = true := by
  have hnodes : nanOffsetBuilder.nodes = #[⟨.intVar 0 1 none, fin 0, fin 1, false, none⟩,
      ⟨.sum [0] [1] .nan, .nan, .nan, true, none⟩] := by
    with_unfolding_all rfl
  exact ⟨.exec _ (.exec _ .new), _, by rw [hnodes]; rfl, rfl, rfl, rfl⟩

end Builder

end MipLowering
