import MipLowering.Scalar
/-!
# Columns of a flat model

A column is a decision variable of the flat model: a name, a kind (continuous, integer or
binary), bounds and, for an integer variable with holes in its domain, the list of values it may
take. A column is known by its position in the model.

## Main definitions

* `MipLowering.ColumnKind`, `MipLowering.Column`, `MipLowering.Column.isIntegral`,
  `MipLowering.Column.admits`.
-/

namespace MipLowering

/-- The kind of a column. -/
inductive ColumnKind
  | continuous
  | integer
  | binary
  deriving Repr, DecidableEq

/-- How the kind of a column is written. -/
def ColumnKind.name : ColumnKind → String
  | .continuous => "Continuous"
  | .integer => "Integer"
  | .binary => "Binary"

/-- A column: a named variable with bounds and, optionally, its list of values. -/
structure Column (α : Type) where
  name : String
  kind : ColumnKind
  lower : α
  upper : α
  values : Option (List Int)

/-- Integer and binary columns take integral values only. -/
def Column.isIntegral {α : Type} (c : Column α) : Bool := c.kind != .continuous

/-- A value lies within the bounds of the column widened by `tolerance`, and within
`tolerance` of an integer if the column is integral. The value list is not consulted. -/
def Column.admits {α : Type} [Scalar α] (c : Column α) (x : α) (tolerance : α) : Bool :=
  decide (c.lower - tolerance ≤ x) && decide (x ≤ c.upper + tolerance) &&
    (!c.isIntegral || decide (Scalar.abs (x - Scalar.round x) ≤ tolerance))

end MipLowering
