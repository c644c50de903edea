/-!
# Reading decimal numerals by one scaling

A numeral `d₁…dₙ[.f₁…fₘ][e±x]` is read the quick way rather than the exact one. Its digits are
gathered into a significand of at most 64 bits, the significand is rounded to a double, and that
double is multiplied or divided once by the double nearest to a power of ten. Two roundings
can miss the nearest double by a unit in the last place: `0.9999999999999999` has the
significand `9999999999999999`, which already rounds to `10^16`, and so reads as `1`.

Gathering stops at 64 bits. Further digits before the point only raise the power of ten;
further digits after it are dropped. A numeral without point and exponent whose significand fits
reads as an integer; a negative one as a double when it is `-0` or below `-2^63`. Powers of ten
beyond `10^308` are applied as divisions by `10^308` first. A result that overflows is out of
range, and so is an exponent too large for 32 bits, unless the significand is zero or the
exponent negative, in which case the value is zero.

## Main definitions

* `MipLowering.Decimal.Numeral` — a numeral as written.
* `MipLowering.Decimal.Numeral.read` — its value: an integer, a double, or out of range.
* `MipLowering.Decimal.Reading.toFloat?` — the value as a double.
-/

namespace MipLowering.Decimal

/-- A decimal numeral as written: its sign, the digits before the point, the digits after it if
a point is written, and the exponent's sign (`true` for minus) and digits if one is written.
Every digit is below ten. -/
structure Numeral where
  negative : Bool
  whole : List Nat
  fraction : Option (List Nat) := none
  exponent : Option (Bool × List Nat) := none
  deriving Repr, DecidableEq

/-- The value of a numeral. -/
inductive Reading
  | integer (n : Int)
  | double (x : Float)
  | outOfRange

/-- The largest significand, `2^64 - 1`. -/
def significandMax : Nat := 18446744073709551615

/-- The largest exponent, `2^31 - 1`; exponents are clamped to `[-2^31, 2^31 - 1]`. -/
def exponentMax : Nat := 2147483647

/-- Digits gathered so far: the significand, the power of ten it is to be scaled by, and
whether gathering has stopped. -/
structure Gathered where
  significand : Nat
  exponent : Int
  full : Bool := false

/-- Gathers a digit before the point: once the significand is full, only the exponent grows. -/
def Gathered.pushWhole (g : Gathered) (d : Nat) : Gathered :=
  if g.full || significandMax < g.significand * 10 + d then
    { g with exponent := g.exponent + 1, full := true }
  else { g with significand := g.significand * 10 + d }

/-- Gathers a digit after the point: the first one that does not fit ends gathering, and it and
the digits after it are dropped. -/
def Gathered.pushFraction (g : Gathered) (d : Nat) : Gathered :=
  if g.full || significandMax < g.significand * 10 + d then { g with full := true }
  else { g with significand := g.significand * 10 + d, exponent := g.exponent - 1 }

/-- The exponent digits as a number, or `none` when they exceed `2^31 - 1`. -/
def exponentValue (ds : List Nat) : Option Nat :=
  ds.foldl (fun acc d => acc.bind fun x =>
      if exponentMax < x * 10 + d then none else some (x * 10 + d)) (some 0)

/-- Clamps an exponent to the 32-bit range. -/
def clampExponent (e : Int) : Int :=
  if e < -(exponentMax : Int) - 1 then -(exponentMax : Int) - 1
  else if (exponentMax : Int) < e then exponentMax else e

/-- The double nearest to `10^k`. -/
def powerOfTen (k : Nat) : Float := Float.ofScientific 1 false k

/-- The double nearest to a significand of at most 64 bits. -/
def significandToFloat (s : Nat) : Float := s.toUInt64.toFloat

/-- Scales `f` by `10^e` with one multiplication or division, after dividing by `10^308` while
the power is beyond the table of powers up to `10^308`. `none` when the result overflows. -/
def scaleByPowerOfTen (f : Float) (e : Int) : Option Float :=
  if e.natAbs ≤ 308 then
    if 0 ≤ e then
      let g := f * powerOfTen e.natAbs
      if g.isInf then none else some g
    else some (f / powerOfTen e.natAbs)
  else if f == 0 then some f
  else if 0 ≤ e then none
  else scaleByPowerOfTen (f / powerOfTen 308) (e + 308)
termination_by e.natAbs
decreasing_by omega

/-- The double of a gathered significand and exponent, with the numeral's sign. -/
def fromParts (negative : Bool) (s : Nat) (e : Int) : Reading :=
  match scaleByPowerOfTen (significandToFloat s) e with
  | some f => .double (if negative then -f else f)
  | none => .outOfRange

/-- The value of a numeral, read by one scaling of its gathered significand. -/
def Numeral.read (n : Numeral) : Reading :=
  let g := n.whole.foldl Gathered.pushWhole ⟨0, 0, false⟩
  match n.fraction, n.exponent with
  | none, none =>
    if g.full then fromParts n.negative g.significand g.exponent
    else if !n.negative then .integer g.significand
    else if g.significand == 0 || 9223372036854775808 < g.significand then
      .double (-(significandToFloat g.significand))
    else .integer (-(g.significand : Int))
  | _, _ =>
    let g := (n.fraction.getD []).foldl Gathered.pushFraction { g with full := false }
    match n.exponent with
    | none => fromParts n.negative g.significand g.exponent
    | some (minus, ds) =>
      match exponentValue ds with
      | some x =>
        let e := if minus then g.exponent - x else g.exponent + x
        fromParts n.negative g.significand (clampExponent e)
      | none =>
        if g.significand != 0 && !minus then .outOfRange
        else .double (if n.negative then -0.0 else 0.0)

/-- The double of a reading, if it is in range: an integer is rounded to the nearest double. -/
def Reading.toFloat? : Reading → Option Float
  | .integer i =>
    some (if 0 ≤ i then significandToFloat i.toNat else -(significandToFloat i.natAbs))
  | .double x => some x
  | .outOfRange => none

end MipLowering.Decimal
