/-!
# Scalars

Bounds, coefficients and values of a model are *scalars*: a number type with the operations of
the lowering and the search, the two infinities, NaN and a signed zero. The library is written
over any `Scalar`; programs run it on `Float`, and statements about exact arithmetic can take
another instance.

The comparisons are those of floating point: every comparison with NaN is false, and `==` is
numeric equality, so `0 == -0`. The derived operations fix the remaining conventions:

* `Scalar.max a b` is `a` when `b` is NaN, else the larger one, and `b` on a tie, so of `0` and
  `-0` the one given second (`Scalar.min` likewise); a NaN first operand is passed over.
* `Scalar.isWhole x` holds for finite values without fractional part.
* `Scalar.sum` adds from the left, starting at `-0`, so the empty sum is `-0`.
* `Scalar.toInt64` truncates towards zero and saturates to the range of 64-bit signed integers,
  with NaN going to `0`; `Scalar.toWord` does the same for the 64-bit unsigned range.

## Main definitions

* `MipLowering.Scalar` — the class.
* `MipLowering.Scalar.max`, `MipLowering.Scalar.min`, `MipLowering.Scalar.isWhole`,
  `MipLowering.Scalar.sum`, `MipLowering.Scalar.toInt64`, `MipLowering.Scalar.toWord`.
-/

namespace MipLowering

/-- A number type for bounds, coefficients and values. -/
class Scalar (α : Type)
    extends Add α, Sub α, Mul α, Neg α, BEq α, LT α, LE α, OfScientific α where
  /-- Decides `<`. -/
  decLt : ∀ a b : α, Decidable (a < b)
  /-- Decides `≤`. -/
  decLe : ∀ a b : α, Decidable (a ≤ b)
  /-- The value nearest to an integer. -/
  ofInt : Int → α
  /-- Whether the value is NaN. -/
  isNaN : α → Bool
  /-- Whether the value is neither NaN nor infinite. -/
  isFinite : α → Bool
  /-- The greatest integral value not above. -/
  floor : α → α
  /-- The least integral value not below. -/
  ceil : α → α
  /-- The nearest integral value, halves away from zero. -/
  round : α → α
  /-- The absolute value. -/
  abs : α → α
  /-- The integer part, rounded towards zero, of a finite value; `none` otherwise. -/
  truncInt? : α → Option Int
  /-- Positive infinity. -/
  infinity : α
  /-- Zero with the sign bit set. -/
  negZero : α

namespace Scalar

variable {α : Type} [Scalar α]

instance (a b : α) : Decidable (a < b) := Scalar.decLt a b

instance (a b : α) : Decidable (a ≤ b) := Scalar.decLe a b

/-- The scalar `0`. -/
def zero : α := ofInt 0

/-- The scalar `1`. -/
def one : α := ofInt 1

/-- Negative infinity. -/
def negInfinity : α := -(infinity : α)

/-- The larger of two values; the first when the second is NaN, the second on a tie (so of
`0` and `-0` the one given second). -/
def max (a b : α) : α := if isNaN b then a else if b < a then a else b

/-- The smaller of two values; the first when the second is NaN, the second on a tie (so of
`0` and `-0` the one given second). -/
def min (a b : α) : α := if isNaN b then a else if a < b then a else b

/-- Finite and without fractional part. -/
def isWhole (x : α) : Bool := isFinite x && floor x == x

/-- Left-to-right sum starting at `-0`. -/
def sum (xs : List α) : α := xs.foldl (· + ·) negZero

/-- Least 64-bit signed integer. -/
def int64Min : Int := -9223372036854775808

/-- Greatest 64-bit signed integer. -/
def int64Max : Int := 9223372036854775807

/-- Greatest 64-bit unsigned integer. -/
def wordMax : Nat := 18446744073709551615

/-- Truncation towards zero, saturated to the 64-bit signed range; NaN goes to `0`. -/
def toInt64 (x : α) : Int :=
  match truncInt? x with
  | some n => if n < int64Min then int64Min else if int64Max < n then int64Max else n
  | none => if isNaN x then 0 else if zero < x then int64Max else int64Min

/-- Truncation towards zero, saturated to the 64-bit unsigned range; NaN goes to `0`. -/
def toWord (x : α) : Nat :=
  match truncInt? x with
  | some n => if n < 0 then 0 else if (wordMax : Int) < n then wordMax else n.toNat
  | none => if isNaN x then 0 else if zero < x then wordMax else 0

end Scalar

end MipLowering
