import MipLowering.Flat.Model
import MipLowering.Error
/-!
# Expression nodes

A model is an arena of nodes, each known by its position (its *id*). A node has a kind with its
operands, value bounds derived when it is created, whether its value may be fractional, and,
once it has been reached by an add, its encoding in the flat model: a column of its own, affine
in its children (folded into every row that uses it), or posted as a constraint (reading as the
constant `1`).

## Main definitions

* `MipLowering.ViewShape`, `MipLowering.Rel`, `MipLowering.Operand`, `MipLowering.FlowKind`.
* `MipLowering.Kind`, `MipLowering.Kind.children`, `MipLowering.Kind.name`.
* `MipLowering.Encoding`, `MipLowering.Node`, `MipLowering.Node.isBoolean`.
-/

namespace MipLowering

/-- The shape an affine view `scale · base + offset` was built as: `x + offset`, `scale · x` or
both. All three fold alike. -/
inductive ViewShape
  | shift
  | scale
  | affine
  deriving Repr, DecidableEq

/-- A binary relation. -/
inductive Rel
  | eq
  | ne
  | le
  | ge
  | lt
  | gt
  deriving Repr, DecidableEq

namespace Rel

/-- The operator as written in dumps. -/
def symbol : Rel → String
  | .eq => "=="
  | .ne => "!="
  | .le => "<="
  | .ge => ">="
  | .lt => "<"
  | .gt => ">"

/-- The short name of a relation node. -/
def name : Rel → String
  | .eq => "eq"
  | .ne => "ne"
  | .le => "le"
  | .ge => "ge"
  | .lt => "lt"
  | .gt => "gt"

end Rel

/-- The right operand of a relation: a node or a constant. -/
inductive Operand (α : Type)
  | node (id : Nat)
  | const (k : α)

/-- A flow constraint: all values distinct, or occurrence bounds per value. -/
inductive FlowKind
  | allDifferent
  | gcc
  deriving Repr, DecidableEq

/-- The kinds of node, with their operands. -/
inductive Kind (α : Type)
  /-- A continuous variable. -/
  | floatVar (lower upper : α)
  /-- An integer variable, optionally restricted to a list of values. -/
  | intVar (lower upper : Int) (values : Option (List Int))
  /-- `scale · base + offset`, never given a column of its own. -/
  | view (shape : ViewShape) (base : Nat) (scale offset : α)
  /-- `offset + Σ weights[i] · vars[i]`. -/
  | sum (vars : List Nat) (weights : List Int) (offset : α)
  /-- `lhs rel rhs`. -/
  | rel (r : Rel) (lhs : Nat) (rhs : Operand α)
  /-- Negation of a 0/1 reading. -/
  | not (a : Nat)
  /-- Conjunction of two 0/1 readings. -/
  | and (a b : Nat)
  /-- Disjunction of two 0/1 readings. -/
  | or (a b : Nat)
  /-- `first + coefs[0] ≤ second`. -/
  | precedence (first second : Nat) (coefs : List Int)
  /-- `first + coefs[0] ≤ second` or `second + coefs[1] ≤ first`. -/
  | noOverlap (first second : Nat) (coefs : List Int)
  /-- AllDifferent (no values) or global cardinality over `vars`. -/
  | flow (kind : FlowKind) (vars : List Nat) (values lb ub : List Int)
  /-- An objective over `expr`. -/
  | objective (sense : Sense) (expr : Nat)

namespace Kind

variable {α : Type}

/-- The direct operands, in the order they are added. -/
def children : Kind α → List Nat
  | .floatVar .. | .intVar .. => []
  | .view _ base _ _ => [base]
  | .sum vars _ _ => vars
  | .flow _ vars _ _ _ => vars
  | .rel _ lhs (.node rhs) => [lhs, rhs]
  | .rel _ lhs (.const _) => [lhs]
  | .not a => [a]
  | .and a b | .or a b => [a, b]
  | .precedence first second _ | .noOverlap first second _ => [first, second]
  | .objective _ expr => [expr]

/-- The short name of a kind. -/
def name : Kind α → String
  | .floatVar .. => "FloatVar"
  | .intVar .. => "IntVar"
  | .view .shift .. => "SumView"
  | .view .scale .. => "ProductView"
  | .view .affine .. => "LinearView"
  | .sum .. => "Sum"
  | .rel r .. => r.name
  | .not _ => "not"
  | .and .. => "and"
  | .or .. => "or"
  | .precedence .. => "Precedence"
  | .noOverlap .. => "NoOverlap"
  | .flow .allDifferent .. => "AllDiff"
  | .flow .gcc .. => "Gcc"
  | .objective .minimise _ => "Minimise"
  | .objective .maximise _ => "Maximise"

/-- Relations, logic and the scheduling pairs: the kinds over two operands. -/
def isBinop : Kind α → Bool
  | .rel .. | .not _ | .and .. | .or .. | .precedence .. | .noOverlap .. => true
  | _ => false

/-- Asserting a node of this kind at top level posts a constraint. -/
def isConstraint : Kind α → Bool
  | .flow .. | .objective .. => true
  | k => k.isBinop

end Kind

/-- How a node was lowered. -/
inductive Encoding
  /-- Backed by one column. -/
  | column (v : Nat)
  /-- Affine in its children, folded into every row that uses it. -/
  | affine
  /-- Asserted as a constraint; reads as the constant `1`. -/
  | posted
  deriving Repr, DecidableEq

/-- A node of the arena: kind, derived bounds, continuity and encoding. -/
structure Node (α : Type) where
  kind : Kind α
  lower : α
  upper : α
  continuous : Bool
  encoding : Option Encoding := none

namespace Node

variable {α : Type} [Scalar α]

/-- The column backing the node, if it has one. -/
def column? (n : Node α) : Option Nat :=
  match n.encoding with
  | some (.column v) => some v
  | _ => none

/-- The node reads as 0/1 without coercion: integral with bounds inside `[0, 1]`. -/
def isBoolean (n : Node α) : Bool :=
  !n.continuous && decide (Scalar.zero ≤ n.lower) && decide (n.upper ≤ Scalar.one)

end Node

end MipLowering
