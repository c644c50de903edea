import MipLowering.Flat.Row
/-!
# Flat models

A flat model is what a numeric backend receives: columns, rows, an optional objective column
with its sense, and the decision columns a search branches on first. Columns and rows are
known by their positions.

## Main definitions

* `MipLowering.Sense`, `MipLowering.Objective`, `MipLowering.FlatModel`.
* `MipLowering.FlatModel.addColumn` — a new column; binary bounds are clipped to `[0, 1]`.
* `MipLowering.FlatModel.truncate` — drops the columns and rows past given counts.
* `MipLowering.FlatModel.violatedRows`, `MipLowering.FlatModel.isFeasible`,
  `MipLowering.FlatModel.objectiveValue`.
* `MipLowering.FlatModel.render` — the text of a model, one line per column, row and objective.
-/

namespace MipLowering

/-- The direction of an objective. -/
inductive Sense
  | minimise
  | maximise
  deriving Repr, DecidableEq

/-- How a sense is written. -/
def Sense.name : Sense → String
  | .minimise => "Minimise"
  | .maximise => "Maximise"

/-- An objective: optimise the value of one column. -/
structure Objective where
  sense : Sense
  column : Nat
  deriving Repr, DecidableEq

/-- Columns, rows, an objective and the decision columns. -/
structure FlatModel (α : Type) where
  columns : Array (Column α) := #[]
  rows : Array (Row α) := #[]
  objective : Option Objective := none
  decisions : List Nat := []

namespace FlatModel

variable {α : Type} [Scalar α]

/-- Appends a column and returns its position. A binary column keeps only the part of its
bounds inside `[0, 1]`; the other kinds keep their bounds. -/
def addColumn (m : FlatModel α) (name : String) (kind : ColumnKind) (lower upper : α) :
    Nat × FlatModel α :=
  let (lo, hi) :=
    if kind == .binary then (Scalar.max lower Scalar.zero, Scalar.min upper Scalar.one)
    else (lower, upper)
  (m.columns.size, { m with columns := m.columns.push ⟨name, kind, lo, hi, none⟩ })

/-- Appends a row. -/
def addRow (m : FlatModel α) (r : Row α) : FlatModel α := { m with rows := m.rows.push r }

/-- Applies `f` to the column at `v`, if there is one. -/
def modifyColumn (m : FlatModel α) (v : Nat) (f : Column α → Column α) : FlatModel α :=
  { m with columns := m.columns.modify v f }

/-- Keeps the first `columns` columns and `rows` rows, and puts back `objective`. -/
def truncate (m : FlatModel α) (columns rows : Nat) (objective : Option Objective) :
    FlatModel α :=
  { m with columns := m.columns.take columns, rows := m.rows.take rows, objective }

/-- Positions of the rows that `values` does not satisfy within `tolerance`, in order. -/
def violatedRows (m : FlatModel α) (values : Array α) (tolerance : α) : List Nat :=
  ((List.range m.rows.size).zip m.rows.toList).filterMap fun p =>
    if p.2.isSatisfied values tolerance then none else some p.1

/-- One value per column, each admitted by its column, and no violated row. -/
def isFeasible (m : FlatModel α) (values : Array α) (tolerance : α) : Bool :=
  values.size == m.columns.size &&
    (m.columns.toList.zip values.toList).all (fun p => p.1.admits p.2 tolerance) &&
    (m.violatedRows values tolerance).isEmpty

/-- The value of the objective column, when there is an objective and a value for it. -/
def objectiveValue (m : FlatModel α) (values : Array α) : Option α :=
  m.objective.bind fun o => values[o.column]?

/-- The text of a list of integers: `[1, 3, 7]`. -/
def renderInts (xs : List Int) : String := "[" ++ ", ".intercalate (xs.map toString) ++ "]"

/-- The line of a column: `vN name: Kind in [lower, upper]`, or the value list instead of the
bounds. -/
def renderColumn (i : Nat) (c : Column Float) : String :=
  let head := "v" ++ toString i ++ " " ++ c.name ++ ": " ++ c.kind.name ++ " in "
  match c.values with
  | some vs => head ++ renderInts vs
  | none => head ++ "[" ++ Row.num c.lower ++ ", " ++ Row.num c.upper ++ "]"

/-- The text of a model: a line per column, then per row, then the objective. -/
def render (m : FlatModel Float) : String :=
  let cols := (List.range m.columns.size).zip m.columns.toList |>.map fun p =>
    renderColumn p.1 p.2 ++ "\n"
  let rows := m.rows.toList.map fun r => r.render ++ "\n"
  let obj := match m.objective with
    | some o => o.sense.name ++ " v" ++ toString o.column ++ "\n"
    | none => ""
  String.join cols ++ String.join rows ++ obj

end FlatModel

end MipLowering
