import MipLowering.Scalar

/-!
# Exact scalars

The rationals with the two infinities and NaN: doubles read without rounding. Sums, differences
and products of finite values are exact; the infinities and NaN follow the rules of doubles
(`∞ - ∞` and `0 · ∞` are NaN, every comparison with NaN is false, `==` is numeric equality).
Integers are exact, floor, ceiling and rounding are those of the rationals, and there is one
zero. Statements that read the arithmetic of a model as exact take this instance.

## Main definitions

* `MipLowering.ERat` and its `Scalar` instance.

## Main results

* `MipLowering.ERat.ceil_le_fin_iff`, `MipLowering.ERat.fin_le_floor_iff` — rounding the bounds
  in keeps the integers between them.
* `MipLowering.ERat.toInt64_fin` — truncation is exact on 64-bit integers.
-/

namespace MipLowering

/-- A rational, an infinity or NaN. -/
inductive ERat
  | nan
  | negInf
  | fin (q : Rat)
  | posInf
  deriving DecidableEq

namespace ERat

/-- The sum; `∞ + -∞` is NaN. -/
def add : ERat → ERat → ERat
  | nan, _ | _, nan => nan
  | posInf, negInf | negInf, posInf => nan
  | posInf, _ | _, posInf => posInf
  | negInf, _ | _, negInf => negInf
  | fin p, fin q => fin (p + q)

/-- The negation; it swaps the infinities. -/
def neg : ERat → ERat
  | nan => nan
  | negInf => posInf
  | fin q => fin (-q)
  | posInf => negInf

/-- An infinity times a finite value: NaN for zero, the infinity itself for a positive value and
its negation for a negative one. -/
def scaleInf (x : ERat) (p : Rat) : ERat :=
  if p = 0 then nan else if 0 < p then x else neg x

/-- The product; `0 · ∞` is NaN. -/
def mul : ERat → ERat → ERat
  | nan, _ | _, nan => nan
  | fin p, fin q => fin (p * q)
  | fin p, x | x, fin p => scaleInf x p
  | posInf, posInf | negInf, negInf => posInf
  | posInf, negInf | negInf, posInf => negInf

/-- `<` as a test: false whenever NaN is involved. -/
def blt : ERat → ERat → Bool
  | negInf, fin _ | negInf, posInf | fin _, posInf => true
  | fin p, fin q => decide (p < q)
  | _, _ => false

/-- `≤` as a test: false whenever NaN is involved. -/
def ble : ERat → ERat → Bool
  | negInf, negInf | negInf, fin _ | negInf, posInf | fin _, posInf | posInf, posInf => true
  | fin p, fin q => decide (p ≤ q)
  | _, _ => false

/-- Numeric equality: NaN equals nothing. -/
def beq : ERat → ERat → Bool
  | negInf, negInf | posInf, posInf => true
  | fin p, fin q => decide (p = q)
  | _, _ => false

/-- Applies an integer-valued rounding to a finite value; infinities and NaN stay. -/
def roundWith (f : Rat → Int) : ERat → ERat
  | fin q => fin (f q)
  | x => x

/-- The nearest integer, halves away from zero. -/
def roundHalfAway (q : Rat) : Int :=
  if 0 ≤ q then (q + 1 / 2).floor else -((-q + 1 / 2).floor)

/-- The integer part of a finite value, towards zero. -/
def truncInt? : ERat → Option Int
  | fin q => some (if 0 ≤ q then q.floor else q.ceil)
  | _ => none

instance : Scalar ERat where
  add := add
  sub a b := add a (neg b)
  mul := mul
  neg := neg
  beq := beq
  lt a b := blt a b = true
  le a b := ble a b = true
  ofScientific m s e := fin (OfScientific.ofScientific m s e)
  decLt a b := inferInstanceAs (Decidable (blt a b = true))
  decLe a b := inferInstanceAs (Decidable (ble a b = true))
  ofInt z := fin z
  isNaN x := x == nan
  isFinite
    | fin _ => true
    | _ => false
  floor := roundWith Rat.floor
  ceil := roundWith Rat.ceil
  round := roundWith roundHalfAway
  abs
    | fin q => fin (if 0 ≤ q then q else -q)
    | nan => nan
    | _ => posInf
  truncInt? := truncInt?
  infinity := posInf
  negZero := fin 0

/-! ### Reading the operations -/

@[simp] theorem ofInt_eq (z : Int) : (Scalar.ofInt z : ERat) = fin z := rfl

@[simp] theorem floor_fin (q : Rat) : Scalar.floor (fin q) = fin q.floor := rfl

@[simp] theorem ceil_fin (q : Rat) : Scalar.ceil (fin q) = fin q.ceil := rfl

@[simp] theorem fin_le_fin {p q : Rat} : (fin p : ERat) ≤ fin q ↔ p ≤ q := decide_eq_true_iff

@[simp] theorem fin_sub_fin (p q : Rat) : (fin p : ERat) - fin q = fin (p - q) :=
  congrArg fin (Rat.sub_eq_add_neg p q).symm

/-- No value lies below itself, NaN included. -/
theorem lt_irrefl (a : ERat) : ¬a < a := by
  change blt a a ≠ true
  cases a <;> simp [blt]

theorem lt_trans (a b c : ERat) (hab : a < b) (hbc : b < c) : a < c := by
  change blt a b = true at hab
  change blt b c = true at hbc
  change blt a c = true
  cases a <;> cases b <;> cases c <;> simp_all [blt]
  -- two strict inequalities of rationals
  obtain ⟨hab₁, hab₂⟩ := Rat.lt_iff_le_and_not_ge.1 hab
  obtain ⟨hbc₁, hbc₂⟩ := Rat.lt_iff_le_and_not_ge.1 hbc
  exact Rat.lt_iff_le_and_not_ge.2 ⟨Rat.le_trans hab₁ hbc₁, fun hca => hbc₂ (Rat.le_trans hca hab₁)⟩

theorem ofInt_injective : Function.Injective (Scalar.ofInt : Int → ERat) :=
  fun _ _ h => Rat.intCast_inj.1 (fin.inj h)

/-- Rounding a lower bound up keeps the integers above it. -/
theorem ceil_le_fin_iff (l : ERat) (z : Int) : Scalar.ceil l ≤ fin z ↔ l ≤ fin z := by
  cases l with
  | fin q =>
    rw [ceil_fin, fin_le_fin, fin_le_fin, Rat.intCast_le_intCast]
    exact Rat.ceil_le_iff
  | _ => exact Iff.rfl

/-- Rounding an upper bound down keeps the integers below it. -/
theorem fin_le_floor_iff (u : ERat) (z : Int) : fin z ≤ Scalar.floor u ↔ fin z ≤ u := by
  cases u with
  | fin q =>
    rw [floor_fin, fin_le_fin, fin_le_fin, Rat.intCast_le_intCast]
    exact Rat.le_floor_iff
  | _ => exact Iff.rfl

/-- Truncation is exact on the integers of the 64-bit range. -/
theorem toInt64_fin {z : Int} (hmin : Scalar.int64Min ≤ z) (hmax : z ≤ Scalar.int64Max) :
    Scalar.toInt64 (fin z) = z := by
  have htrunc : Scalar.truncInt? (fin (z : Rat)) = some z := by
    change some (if 0 ≤ (z : Rat) then (z : Rat).floor else (z : Rat).ceil) = some z
    rw [Rat.floor_intCast, Rat.ceil_intCast, ite_self]
  simp only [Scalar.toInt64, htrunc, if_neg (Int.not_lt.2 hmin), if_neg (Int.not_lt.2 hmax)]

end ERat

end MipLowering
