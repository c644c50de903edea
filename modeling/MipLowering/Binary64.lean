/-!
# Binary64 values by their parts

A double is read off its 64 bits as a sign, a biased exponent and a fraction field. A finite
non-zero double is `± m · 2^q`, with the hidden bit included in `m` for normal numbers. This
module gives that split, and the exact truncation of a finite double towards zero that the
saturating casts to integers are built from.

## Main definitions

* `MipLowering.Binary64.Parts` — sign, significand and binary exponent of a finite non-zero double.
* `MipLowering.Binary64.Shape` — NaN, an infinity, a zero or a finite non-zero value.
* `MipLowering.Binary64.shape` — the shape of a bit pattern.
* `MipLowering.Binary64.truncInt?` — the integer part of a finite double, exactly.
-/

namespace MipLowering.Binary64

/-- A finite non-zero double `(-1)^negative · significand · 2^exponent`. `normalEdge` marks a
normal number whose fraction field is zero: the double below it lies at half the distance of the
double above it. -/
structure Parts where
  negative : Bool
  significand : Nat
  exponent : Int
  normalEdge : Bool
  deriving Repr, DecidableEq

/-- What a bit pattern denotes. -/
inductive Shape
  | nan
  | infinite (negative : Bool)
  | zero (negative : Bool)
  | finite (parts : Parts)
  deriving Repr, DecidableEq

/-- Number of fraction bits of a double. -/
def fractionBits : Nat := 52

/-- Reads a bit pattern: bit 63 is the sign, bits 52 to 62 the biased exponent, the rest the
fraction. Exponent field 0 holds zeros and subnormals, 2047 the infinities and NaNs. -/
def shape (bits : UInt64) : Shape :=
  let n : Nat := bits.toNat
  let negative := n / 9223372036854775808 % 2 == 1
  let field : Nat := n / Nat.pow 2 fractionBits % 2048
  let fraction : Nat := n % Nat.pow 2 fractionBits
  if field == 2047 then
    if fraction == 0 then .infinite negative else .nan
  else if field == 0 then
    if fraction == 0 then .zero negative else .finite ⟨negative, fraction, -1074, false⟩
  else
    .finite ⟨negative, fraction + Nat.pow 2 fractionBits, Int.ofNat field - 1075, fraction == 0⟩

/-- The magnitude of a finite non-zero double truncated towards zero. -/
def Parts.truncNat (p : Parts) : Nat :=
  if p.exponent < 0 then p.significand / Nat.pow 2 (-p.exponent).toNat
  else p.significand * Nat.pow 2 p.exponent.toNat

/-- The integer part of a double, rounded towards zero; `none` for NaN and the infinities. -/
def truncInt? (x : Float) : Option Int :=
  match shape x.toBits with
  | .nan => none
  | .infinite _ => none
  | .zero _ => some 0
  | .finite p => some (if p.negative then -(p.truncNat : Int) else p.truncNat)

end MipLowering.Binary64
