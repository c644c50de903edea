import MipLowering.Decimal.Shortest
/-!
# Positional text of doubles

Doubles are written with their shortest digits and never with an exponent: a value below one
gets leading zeros after `0.`, a large value trailing zeros before the point. A `Style` holds the
decisions that differ between the texts a program writes: the spelling of NaN and infinity and
whether an integral value keeps a `.0`.

## Main definitions

* `MipLowering.Decimal.Digits.plain` — positional text of digits and point.
* `MipLowering.Decimal.Style`, `MipLowering.Decimal.Style.display`, `MipLowering.Decimal.Style.data`.
* `MipLowering.Decimal.Style.render` — the text of a double in a style.
-/

namespace MipLowering.Decimal

/-- `n` copies of `0`. -/
def zeros (n : Nat) : String := String.ofList (List.replicate n '0')

/-- `0.d × 10^k` written out: `0.00d` for `k ≤ 0`, a point inside the digits for `k` below
their count, and trailing zeros otherwise. -/
def Digits.plain (d : Digits) : String :=
  let s := Nat.repr d.digits
  if d.point ≤ 0 then "0." ++ zeros d.point.natAbs ++ s
  else if d.point.toNat < s.length then
    String.ofList (s.toList.take d.point.toNat) ++ "." ++ String.ofList (s.toList.drop d.point.toNat)
  else s ++ zeros (d.point.toNat - s.length)

/-- The choices of a text format for doubles. -/
structure Style where
  /-- Text of a NaN. -/
  nan : String
  /-- Text of positive infinity; negative infinity gets a minus in front. -/
  infinity : String
  /-- Whether an integral value is written with a trailing `.0`. -/
  pointZero : Bool

/-- The text of values inside messages and model dumps: `3`, `-0`, `0.5`, `inf`, `NaN`. -/
def Style.display : Style := ⟨"NaN", "inf", false⟩

/-- The text of values as data: integral values keep `.0` so they read back as doubles, and the
non-finite values are spelled `nan` and `inf`. -/
def Style.data : Style := ⟨"nan", "inf", true⟩

/-- The text of a double: its sign (also of a negative zero), then its shortest digits. -/
def Style.render (st : Style) (x : Float) : String :=
  let finish (neg : Bool) (body : String) : String :=
    let body := if st.pointZero && !body.contains '.' then body ++ ".0" else body
    if neg then "-" ++ body else body
  match Binary64.shape x.toBits with
  | .nan => st.nan
  | .infinite neg => if neg then "-" ++ st.infinity else st.infinity
  | .zero neg => finish neg "0"
  | .finite p => finish p.negative p.shortest.plain

end MipLowering.Decimal
