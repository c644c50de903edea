import MipLowering.Scalar
import MipLowering.Binary64
/-!
# Doubles as scalars

The instance that programs run on: the hardware operations of `Float`, with integers rounded to
the nearest double and truncation read off the bits (`Binary64.truncInt?`).
-/

namespace MipLowering

instance : Scalar Float where
  decLt := fun a b => Float.decLt a b
  decLe := fun a b => Float.decLe a b
  ofInt := Float.ofInt
  isNaN := Float.isNaN
  isFinite := Float.isFinite
  floor := Float.floor
  ceil := Float.ceil
  round := Float.round
  abs := Float.abs
  truncInt? := Binary64.truncInt?
  infinity := 1.0 / 0.0
  negZero := -0.0

end MipLowering
