import MipLowering.Lowering.Encode
import MipLowering.Search.Enumerate
/-!
# Initialising and solving a model

Initialising freezes a model: no node, array or add is accepted afterwards. It may name
decision nodes, whose columns the search branches on first; a view stands for its base, and a
node without a column of its own (an affine sum, a posted constraint) is passed over. A frozen
model is handed to the enumeration, and the value of any encoded node, views included, is read
back from a satisfying assignment.

## Main definitions

* `MipLowering.Builder.initialise`, `MipLowering.Builder.collectDecision`,
  `MipLowering.Builder.initialiseWith`.
* `MipLowering.Builder.solve`, `MipLowering.Builder.value`.
-/

namespace MipLowering

namespace Builder

variable {α : Type} [Scalar α]

/-- Freezes the model; refused when it is frozen already. -/
def initialise (b : Builder α) : Except (ModelError α) (Builder α) :=
  if b.initialised then .error .frozen else .ok { b with initialised := true }

/-- The decision column a node stands for: its own column, that of the base of a view, or none
for a node encoded without a column. The node must be encoded. -/
def decisionColumn? (b : Builder α) (id : Nat) : Except (ModelError α) (Option Nat) := do
  let n ← b.node id
  match n.kind, n.encoding with
  | _, none => .error (.notEncoded id)
  | .view _ base _ _, _ => if _h : base < id then b.decisionColumn? base else .error (.notEncoded id)
  | _, some (.column v) => pure (some v)
  | _, _ => pure none
termination_by id

/-- Records the decision column of node `id` after the columns `acc`, unless it is there
already. -/
def collectDecision (b : Builder α) (acc : List Nat) (id : Nat) :
    Except (ModelError α) (List Nat) := do
  match ← b.decisionColumn? id with
  | some v => pure (if acc.contains v then acc else acc ++ [v])
  | none => pure acc

/-- Freezes the model with the columns of the decision nodes, in order and without repeats,
as the model's decision columns. Every decision node is checked before the model is frozen. -/
def initialiseWith (b : Builder α) (decisions : List Nat) : Except (ModelError α) (Builder α) := do
  let cols ← decisions.foldlM b.collectDecision []
  let b ← b.initialise
  pure { b with model := { b.model with decisions := cols } }

/-- Hands the frozen model to the enumeration under a validated configuration. The inner result
is the search's own; its planning fails only on decisions with repeats or beyond the columns,
which `initialiseWith` never records. -/
def solve (b : Builder α) (cfg : SearchConfig) :
    Except (ModelError α) (Except OutOfRange (Solution α)) := do
  if !b.initialised then throw .notInitialised
  cfg.validate
  pure (b.model.solve cfg)

/-- The value of an encoded node under a satisfying assignment of this model. -/
def value (b : Builder α) (sol : Solution α) (id : Nat) : Except (ModelError α) α := do
  if !sol.isSat || sol.values.size != b.model.columns.size then throw .noAssignment
  nodeValue b.nodes sol.values id

end Builder

end MipLowering
