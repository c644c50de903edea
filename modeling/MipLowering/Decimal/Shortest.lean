import MipLowering.Binary64
/-!
# Shortest decimal digits of a double

Every real in the *rounding interval* of a double reads back as that double. For
`v = m · 2^q` the interval reaches half the gap to each neighbour; the gap below is halved once
more at the lower edge of a binade, and both ends belong to the interval exactly when `m` is
even (ties round to the even significand).

The shortest digits are found grid by grid: on the grid of `n` significant digits around `v`,
the two grid points next to `v` are the only candidates, since the interval is convex and holds
`v`. The first `n` with a candidate inside wins; of two candidates the nearer, and an exact tie
goes to the upper one. All arithmetic is on natural numbers scaled so that `v`, the interval
ends and the grid steps are integers.

## Main definitions

* `MipLowering.Decimal.Digits` — significant digits with the position of the decimal point.
* `MipLowering.Binary64.Parts.shortest` — the shortest digits of a finite non-zero double.
-/

namespace MipLowering.Decimal

/-- The value `0.d₁d₂…dₙ × 10^point`, where `d₁d₂…dₙ` is the decimal text of `digits`. -/
structure Digits where
  digits : Nat
  point : Int
  deriving Repr, DecidableEq

/-- Number of decimal digits of `n` (one for zero). -/
def width (n : Nat) : Nat := (Nat.toDigits 10 n).length

/-- Removes the zeros at the end of the decimal text of a positive number. -/
def dropTrailingZeros (n : Nat) : Nat :=
  if h : 0 < n ∧ n % 10 = 0 then dropTrailingZeros (n / 10) else n
termination_by n
decreasing_by exact Nat.div_lt_self h.1 (by decide)

/-- A double scaled to an integer grid: the value is `scaled / (4 · 10^places)`, the rounding
interval runs from `scaled - below` to `scaled + above`, and `closed` says whether its ends
belong to it. -/
structure Scaled where
  scaled : Nat
  below : Nat
  above : Nat
  places : Nat
  closed : Bool

/-- The grid candidate for `n` significant digits, if one lies in the interval. `lead` is the
number of digits of `scaled / 4`. -/
def Scaled.candidate (s : Scaled) (lead n : Nat) : Option Digits :=
  let step := 4 * Nat.pow 10 (lead - n)
  let c := s.scaled / step
  let low := c * step
  let high := low + step
  let lowIn := if s.closed then s.scaled - s.below ≤ low else s.scaled - s.below < low
  let highIn := if s.closed then high ≤ s.scaled + s.above else high < s.scaled + s.above
  let pick : Option Nat :=
    if lowIn && highIn then some (if step ≤ 2 * (s.scaled - low) then c + 1 else c)
    else if lowIn then some c
    else if highIn then some (c + 1)
    else none
  pick.map fun d =>
    ⟨dropTrailingZeros d, (lead : Int) - (n : Int) + (width d : Int) - (s.places : Int)⟩

end MipLowering.Decimal

namespace MipLowering.Binary64

open MipLowering.Decimal

/-- The parts of a double on the integer grid of `Decimal.Scaled`. -/
def Parts.toScaled (p : Parts) : Scaled :=
  if p.exponent < 0 then
    let places := (-p.exponent).toNat
    let five := Nat.pow 5 places
    ⟨4 * p.significand * five, if p.normalEdge then five else 2 * five, 2 * five, places,
      p.significand % 2 == 0⟩
  else
    let two := Nat.pow 2 p.exponent.toNat
    ⟨4 * p.significand * two, if p.normalEdge then two else 2 * two, 2 * two, 0,
      p.significand % 2 == 0⟩

/-- The fewest significant digits that read back as the double, the nearest of them to it. At
full width the double itself is on the grid, so some width up to that one always succeeds. -/
def Parts.shortest (p : Parts) : Digits :=
  let s := p.toScaled
  let lead := width (s.scaled / 4)
  match (List.range' 1 lead).findSome? (s.candidate lead) with
  | some d => d
  | none => ⟨dropTrailingZeros (s.scaled / 4), (lead : Int) - (s.places : Int)⟩

end MipLowering.Binary64
