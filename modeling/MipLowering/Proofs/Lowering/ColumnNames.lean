import MipLowering.Lowering.Encode
import Mathlib.Data.List.Basic

/-!
# Names of columns

A lowering names every column it adds after the node it lowers: `x{id}` for a variable,
`x{id}=={v}` for the binary of a value of an integer variable with holes, `s{id}` for a nested
sum, `obj{expr}` for an objective (after its expression), `b{id}` and `b{id}.{tag}` for
indicators, and `f{id}[{i}]=={v}` for the binaries of a flow constraint. `ColumnName` lists these
forms, and `ColumnName.render` gives the text that the lowering writes.

Different names render to different texts (`ColumnName.render_injective`): after the letters of
its form, a name reads a maximal run of digits, which ends where a character that is not a digit
(`=`, `.`, `[`, `]`) or the end of the text comes, so the digits of the node, and the rest, are
read back uniquely.

## Main definitions

* `MipLowering.ColumnName`, `MipLowering.ColumnName.render`, `MipLowering.ColumnName.owner`.

## Main results

* `MipLowering.ColumnName.render_injective`.
-/

namespace MipLowering

/-! ### Decimal digits -/

section Digits

theorem isDigit_of_mem_toDigits {n : Nat} {c : Char} (h : c ∈ Nat.toDigits 10 n) :
    c.isDigit = true :=
  Nat.isDigit_of_mem_toDigits (by decide) (by decide) h

theorem toDigits_injective : Function.Injective (Nat.toDigits 10) := by
  intro a b h
  rw [← Nat.ofDigitChars_ten_toDigits (n := a), h, Nat.ofDigitChars_ten_toDigits]

/-- Two texts made of a run of digits and a rest that does not start with a digit split alike. -/
theorem digits_append_cancel : ∀ {d₁ d₂ r₁ r₂ : List Char}, (∀ c ∈ d₁, c.isDigit = true) →
    (∀ c ∈ d₂, c.isDigit = true) → (∀ c ∈ r₁.head?, c.isDigit = false) →
    (∀ c ∈ r₂.head?, c.isDigit = false) → d₁ ++ r₁ = d₂ ++ r₂ → d₁ = d₂ ∧ r₁ = r₂
  | [], [], _, _, _, _, _, _, h => ⟨rfl, h⟩
  | [], c :: _, _, _, _, hd₂, hr₁, _, h => by
    -- the rest of the first text would start with a digit
    cases h
    have := hr₁ c rfl
    rw [hd₂ c List.mem_cons_self] at this
    cases this
  | c :: _, [], _, _, hd₁, _, _, hr₂, h => by
    cases h
    have := hr₂ c rfl
    rw [hd₁ c List.mem_cons_self] at this
    cases this
  | c :: d₁, c' :: d₂, _, _, hd₁, hd₂, hr₁, hr₂, h => by
    rw [List.cons_append, List.cons_append, List.cons.injEq] at h
    obtain ⟨rfl, rfl⟩ := digits_append_cancel (fun x hx => hd₁ x (List.mem_cons_of_mem _ hx))
      (fun x hx => hd₂ x (List.mem_cons_of_mem _ hx)) hr₁ hr₂ h.2
    exact ⟨by rw [h.1], rfl⟩

/-- The digits of two numbers followed by rests that do not start with a digit. -/
theorem toDigits_append_cancel {a b : Nat} {r₁ r₂ : List Char}
    (hr₁ : ∀ c ∈ r₁.head?, c.isDigit = false) (hr₂ : ∀ c ∈ r₂.head?, c.isDigit = false)
    (h : Nat.toDigits 10 a ++ r₁ = Nat.toDigits 10 b ++ r₂) : a = b ∧ r₁ = r₂ := by
  obtain ⟨hd, hr⟩ := digits_append_cancel (fun _ => isDigit_of_mem_toDigits)
    (fun _ => isDigit_of_mem_toDigits) hr₁ hr₂ h
  exact ⟨toDigits_injective hd, hr⟩

theorem head_not_digit {c : Char} (hc : c.isDigit = false) (r : List Char) :
    ∀ x ∈ (c :: r).head?, x.isDigit = false := by
  intro x hx
  cases hx
  exact hc

theorem head_nil_not_digit : ∀ x ∈ ([] : List Char).head?, x.isDigit = false := by
  intro x hx
  cases hx

/-- The digits of a number are not those of another followed by a character that is not a
digit. -/
theorem toDigits_ne_append {a b : Nat} {c : Char} {r : List Char} (hc : c.isDigit = false) :
    Nat.toDigits 10 a ≠ Nat.toDigits 10 b ++ c :: r := by
  intro h
  have h' : Nat.toDigits 10 a ++ [] = Nat.toDigits 10 b ++ c :: r := by
    rw [List.append_nil]
    exact h
  cases (toDigits_append_cancel head_nil_not_digit (head_not_digit hc r) h').2

theorem toList_toString_int (v : Int) :
    (toString v).toList =
      if 0 ≤ v then Nat.toDigits 10 v.toNat else '-' :: Nat.toDigits 10 (-v).toNat := by
  rw [Int.toString_eq_repr, Int.repr_eq_if]
  split <;> simp

/-- An integer is read back from its text: a sign, then the digits of its magnitude. -/
theorem toString_int_injective {v w : Int} (h : (toString v).toList = (toString w).toList) :
    v = w := by
  rw [toList_toString_int, toList_toString_int] at h
  -- a text of digits never starts with the sign
  have hsign : ∀ n : Nat, ∀ l : List Char, Nat.toDigits 10 n ≠ '-' :: l := by
    intro n l hn
    have := isDigit_of_mem_toDigits (hn ▸ List.mem_cons_self : '-' ∈ Nat.toDigits 10 n)
    exact absurd this (by decide)
  split_ifs at h with hv hw hw
  · have := toDigits_injective h
    omega
  · exact absurd h (hsign _ _)
  · exact absurd h.symm (hsign _ _)
  · have := toDigits_injective (List.cons_eq_cons.mp h).2
    omega

end Digits

/-! ### Names -/

/-- The name a lowering gives a column it adds. -/
inductive ColumnName
  /-- `x{id}`, the column of a variable. -/
  | var (id : Nat)
  /-- `x{id}=={v}`, the binary of value `v` of an integer variable with holes. -/
  | value (id : Nat) (v : Int)
  /-- `s{id}`, the column of a nested sum. -/
  | sum (id : Nat)
  /-- `obj{expr}`, the column of an objective over `expr`. -/
  | objective (expr : Nat)
  /-- `b{id}`, or `b{id}.{tag}` for a non-empty tag, an indicator of node `id`. -/
  | indicator (id : Nat) (tag : String)
  /-- `f{id}[{i}]=={v}`, the binary of value `v` of variable `i` of a flow constraint. -/
  | flow (id i : Nat) (v : Int)
  deriving DecidableEq

namespace ColumnName

/-- The text of a name. -/
def render : ColumnName → String
  | .var id => "x" ++ toString id
  | .value id v => "x" ++ toString id ++ "==" ++ toString v
  | .sum id => "s" ++ toString id
  | .objective expr => "obj" ++ toString expr
  | .indicator id tag =>
    if tag.isEmpty then "b" ++ toString id else "b" ++ toString id ++ "." ++ tag
  | .flow id i v => "f" ++ toString id ++ "[" ++ toString i ++ "]==" ++ toString v

/-- The node whose lowering adds the column. An objective column is named after its expression
and has none. -/
def owner : ColumnName → Option Nat
  | .var id | .value id _ | .sum id | .indicator id _ | .flow id _ _ => some id
  | .objective _ => none

@[simp] theorem toList_render_var (id : Nat) :
    (render (.var id)).toList = 'x' :: Nat.toDigits 10 id := by
  simp [render]

@[simp] theorem toList_render_value (id : Nat) (v : Int) :
    (render (.value id v)).toList = 'x' :: (Nat.toDigits 10 id ++ '=' :: '=' :: (toString v).toList) := by
  simp [render]

@[simp] theorem toList_render_sum (id : Nat) :
    (render (.sum id)).toList = 's' :: Nat.toDigits 10 id := by
  simp [render]

@[simp] theorem toList_render_objective (expr : Nat) :
    (render (.objective expr)).toList = 'o' :: 'b' :: 'j' :: Nat.toDigits 10 expr := by
  simp [render]

@[simp] theorem toList_render_indicator (id : Nat) (tag : String) :
    (render (.indicator id tag)).toList =
      'b' :: (Nat.toDigits 10 id ++ if tag.isEmpty then [] else '.' :: tag.toList) := by
  show (if tag.isEmpty then _ else _ : String).toList = _
  split <;> simp

@[simp] theorem toList_render_flow (id i : Nat) (v : Int) :
    (render (.flow id i v)).toList = 'f' :: (Nat.toDigits 10 id ++
      '[' :: (Nat.toDigits 10 i ++ ']' :: '=' :: '=' :: (toString v).toList)) := by
  simp [render]

/-- Different names render to different texts. -/
theorem render_injective : Function.Injective render := by
  intro N M h
  have h' := congrArg String.toList h
  -- names of different forms start with different letters, which leaves the pairs of one form
  -- and the two forms that start with `x`
  cases N <;> cases M <;> simp only [toList_render_var, toList_render_value, toList_render_sum,
    toList_render_objective, toList_render_indicator, toList_render_flow, List.cons.injEq,
    Char.reduceEq, true_and, false_and, var.injEq, value.injEq, sum.injEq, objective.injEq,
    indicator.injEq, flow.injEq] at h' ⊢
  case var.var | sum.sum | objective.objective => exact toDigits_injective h'
  case var.value => exact absurd h' (toDigits_ne_append (by decide))
  case value.var => exact absurd h'.symm (toDigits_ne_append (by decide))
  case value.value =>
    obtain ⟨rfl, hr⟩ := toDigits_append_cancel (head_not_digit (by decide) _)
      (head_not_digit (by decide) _) h'
    exact ⟨rfl, toString_int_injective (List.cons.inj (List.cons.inj hr).2).2⟩
  case indicator.indicator id tag id' tag' =>
    -- after the digits comes nothing for the empty tag, else a dot and the tag
    have hrest : ∀ t : String, ∀ c ∈ (if t.isEmpty then [] else '.' :: t.toList).head?,
        c.isDigit = false := by
      intro t
      split
      · exact head_nil_not_digit
      · exact head_not_digit (by decide) _
    obtain ⟨rfl, hr⟩ := toDigits_append_cancel (hrest tag) (hrest tag') h'
    refine ⟨rfl, ?_⟩
    -- an empty tag against a non-empty one leaves `[]` against a dot, which `split_ifs` refutes
    split_ifs at hr with ht ht'
    · rw [String.isEmpty_iff.mp ht, String.isEmpty_iff.mp ht']
    · exact String.toList_inj.mp (List.cons.inj hr).2
  case flow.flow =>
    obtain ⟨rfl, hi⟩ := toDigits_append_cancel (head_not_digit (by decide) _)
      (head_not_digit (by decide) _) h'
    obtain ⟨rfl, hv⟩ := toDigits_append_cancel (head_not_digit (by decide) _)
      (head_not_digit (by decide) _) (List.cons.inj hi).2
    exact ⟨rfl, rfl, toString_int_injective (List.cons.inj (List.cons.inj (List.cons.inj hv).2).2).2⟩

end ColumnName

end MipLowering
