import MipLowering.Flat.Column
import MipLowering.Scalar.Float
import MipLowering.Decimal.Plain
/-!
# Rows of a flat model

A row is `lhs ≤ Σ cᵢ · vᵢ ≤ rhs` over columns `vᵢ`. Rows built by `Row.addVar` keep their terms
merged: a column appears at most once and never with a zero coefficient, in the order of first
insertion. A constant added to the summed side moves into both bounds.

## Main definitions

* `MipLowering.Row`, `MipLowering.Row.addVar`, `MipLowering.Row.addConstant`.
* `MipLowering.Row.activity`, `MipLowering.Row.activityBounds`, `MipLowering.Row.isIntegral`,
  `MipLowering.Row.isSatisfied`.
* `MipLowering.Row.render` — the text `lhs <= 2*v0 - 1*v1 <= rhs`, or `sum == rhs`.
-/

namespace MipLowering

/-- A row `lhs ≤ Σ c · v ≤ rhs`; a term is a column position and its coefficient. -/
structure Row (α : Type) where
  terms : List (Nat × α)
  lhs : α
  rhs : α

namespace Row

variable {α : Type} [Scalar α]

/-- A row without terms. -/
def empty (lhs rhs : α) : Row α := ⟨[], lhs, rhs⟩

/-- Both bounds coincide. -/
def isEquality (r : Row α) : Bool := r.lhs == r.rhs

/-- The coefficient of a column, `0` when the row has no term on it. -/
def coefOf (r : Row α) (v : Nat) : α :=
  match r.terms.find? (·.1 == v) with
  | some t => t.2
  | none => Scalar.zero

/-- Adds `c` to the coefficient of the first term on `v`, dropping the term when the sum is
zero, or appends a new term. -/
def mergeTerm (v : Nat) (c : α) : List (Nat × α) → List (Nat × α)
  | [] => [(v, c)]
  | (w, d) :: rest =>
    if w == v then
      let s := d + c
      if s == Scalar.zero then rest else (w, s) :: rest
    else (w, d) :: mergeTerm v c rest

/-- Adds `c · v`; a zero coefficient changes nothing. -/
def addVar (r : Row α) (v : Nat) (c : α) : Row α :=
  if c == Scalar.zero then r else { r with terms := mergeTerm v c r.terms }

/-- Adds the constant `k` to the summed side: both bounds move down by `k`. -/
def addConstant (r : Row α) (k : α) : Row α := { r with lhs := r.lhs - k, rhs := r.rhs - k }

/-- Replaces both bounds. -/
def withBounds (r : Row α) (lhs rhs : α) : Row α := { r with lhs, rhs }

/-- `Σ c · values[v]`, a missing value read as `0`, summed from the left from `-0`. -/
def activity (r : Row α) (values : Array α) : α :=
  Scalar.sum (r.terms.map fun t => t.2 * values.getD t.1 Scalar.zero)

/-- Smallest and largest activity allowed by the bounds of the columns. A term on a column
that is not there makes both ends infinite; later terms are still added to them. -/
def activityBounds (r : Row α) (cols : Array (Column α)) : α × α :=
  r.terms.foldl
    (fun acc t =>
      match cols[t.1]? with
      | some col =>
        let a := t.2 * col.lower
        let b := t.2 * col.upper
        (acc.1 + Scalar.min a b, acc.2 + Scalar.max a b)
      | none => (Scalar.negInfinity, Scalar.infinity))
    (Scalar.zero, Scalar.zero)

/-- Every coefficient is whole and every term is on an integral column that is there. -/
def isIntegral (r : Row α) (cols : Array (Column α)) : Bool :=
  r.terms.all fun t => Scalar.isWhole t.2 && (cols[t.1]?.map Column.isIntegral).getD false

/-- The activity lies within the bounds widened by `tolerance`. -/
def isSatisfied (r : Row α) (values : Array α) (tolerance : α) : Bool :=
  let a := r.activity values
  decide (r.lhs - tolerance ≤ a) && decide (a ≤ r.rhs + tolerance)

/-- A double in rows and dumps. -/
def num (x : Float) : String := Decimal.Style.display.render x

/-- The summed side: `c*vN` terms joined by ` + ` or, for a negative coefficient, ` - ` with
its magnitude; `0` without terms. -/
def renderSum : List (Nat × Float) → String
  | [] => "0"
  | (v, c) :: rest =>
    rest.foldl
      (fun s t =>
        if t.2 < 0.0 then s ++ " - " ++ num (-t.2) ++ "*v" ++ toString t.1
        else s ++ " + " ++ num t.2 ++ "*v" ++ toString t.1)
      (num c ++ "*v" ++ toString v)

/-- The text of a row: `sum == rhs` for an equality, else `lhs <= sum <= rhs`. -/
def render (r : Row Float) : String :=
  if r.isEquality then renderSum r.terms ++ " == " ++ num r.rhs
  else num r.lhs ++ " <= " ++ renderSum r.terms ++ " <= " ++ num r.rhs

end Row

end MipLowering
