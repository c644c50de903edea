import MipLowering.Decimal.Plain
/-!
# Modelling errors

The ways a request to build, lower or solve a model can be refused. Each error is a cause with
its data; its text is given once, by `ModelError.message`, with numbers written in the display
style of `Decimal.Style.display` and node ids as `#n`. Outcomes of a search (infeasible, limit
reached) are not errors.

## Main definitions

* `MipLowering.ArgumentList` — the argument lists whose lengths are checked.
* `MipLowering.ConfigProblem` — what is wrong with a configuration.
* `MipLowering.ModelError`, `MipLowering.ModelError.name`, `MipLowering.ModelError.message`.
* `MipLowering.OutOfRange` — a lookup beyond the end of a table, which aborts a request.
-/

namespace MipLowering

/-- Argument lists whose length must match another one. -/
inductive ArgumentList
  | sumWeights
  | allDifferentValues
  | gccLowerBounds
  | gccUpperBounds
  | precedenceCoefficients
  | noOverlapCoefficients
  deriving Repr, DecidableEq

/-- How an argument list is named in messages. -/
def ArgumentList.describe : ArgumentList → String
  | .sumWeights => "sum weights"
  | .allDifferentValues => "alldifferent values"
  | .gccLowerBounds => "gcc lower bounds"
  | .gccUpperBounds => "gcc upper bounds"
  | .precedenceCoefficients => "precedence coefficients"
  | .noOverlapCoefficients => "no-overlap coefficients"

/-- What is wrong with a lowering or search configuration. -/
inductive ConfigProblem (α : Type)
  | epsilon (got : α)
  | maxFlowDomain
  | emptyHeuristic
  | restartBase
  | restartFactor (got : Float)

/-- Why a request about a model was refused. -/
inductive ModelError (α : Type)
  | frozen
  | notInitialised
  | lengthMismatch (list : ArgumentList) (expected actual : Nat)
  | emptyDomain
  | invalidBounds (lower upper : α)
  | unknownNode (id : Nat)
  | notEncoded (id : Nat)
  | notReifiable (id : Nat)
  | unboundedBigM (id : Nat)
  | domainTooLarge (id : Nat) (size limit : Nat)
  | continuousDomain (id : Nat)
  | duplicateObjective
  | wrongKind (id : Nat)
  | alreadyEncoded (id : Nat)
  | noAssignment
  | invalidConfig (problem : ConfigProblem α)

namespace ModelError

variable {α : Type}

/-- The name of the kind of error. -/
def name : ModelError α → String
  | .frozen => "Frozen"
  | .notInitialised => "NotInitialised"
  | .lengthMismatch .. => "LengthMismatch"
  | .emptyDomain => "EmptyDomain"
  | .invalidBounds .. => "InvalidBounds"
  | .unknownNode _ => "UnknownNode"
  | .notEncoded _ => "NotEncoded"
  | .notReifiable _ => "NotReifiable"
  | .unboundedBigM _ => "UnboundedBigM"
  | .domainTooLarge .. => "DomainTooLarge"
  | .continuousDomain _ => "ContinuousDomain"
  | .duplicateObjective => "DuplicateObjective"
  | .wrongKind _ => "WrongKind"
  | .alreadyEncoded _ => "AlreadyEncoded"
  | .noAssignment => "NoAssignment"
  | .invalidConfig _ => "InvalidConfig"

/-- A node id as written in messages. -/
def nodeText (id : Nat) : String := "#" ++ toString id

/-- A double as written in messages. -/
def num (x : Float) : String := Decimal.Style.display.render x

/-- The text of a configuration problem. -/
def configText : ConfigProblem Float → String
  | .epsilon got => "epsilon must be positive and finite, got " ++ num got
  | .maxFlowDomain => "max_flow_domain must be at least 1"
  | .emptyHeuristic => "heuristic names must not be empty"
  | .restartBase => "restart base must be at least 1"
  | .restartFactor got => "restart factor must be finite and >= 1, got " ++ num got

/-- The text of an error. -/
def message : ModelError Float → String
  | .frozen => "model is initialised: no further additions are permitted"
  | .notInitialised => "model must be initialised before solving"
  | .lengthMismatch list expected actual =>
    list.describe ++ ": expected " ++ toString expected ++ " entries, got " ++ toString actual
  | .emptyDomain => "empty domain"
  | .invalidBounds lower upper => "invalid bounds [" ++ num lower ++ ", " ++ num upper ++ "]"
  | .unknownNode id => "unknown node " ++ nodeText id
  | .notEncoded id => "node " ++ nodeText id ++ " is referenced before it is encoded"
  | .notReifiable id => "node " ++ nodeText id ++ " cannot be used as a sub-expression"
  | .unboundedBigM id => "cannot derive a finite big-M for node " ++ nodeText id
  | .domainTooLarge id size limit =>
    "domain of node " ++ nodeText id ++ " has " ++ toString size ++ " values, limit is " ++
      toString limit
  | .continuousDomain id => "node " ++ nodeText id ++ " has a continuous domain"
  | .duplicateObjective => "an objective has already been added"
  | .wrongKind id => "node " ++ nodeText id ++ " is not a Sum"
  | .alreadyEncoded id => "node " ++ nodeText id ++ " is already encoded"
  | .noAssignment => "solution carries no assignment for this model"
  | .invalidConfig problem => "invalid configuration: " ++ configText problem

end ModelError

/-- A lookup at `index` in a table of `length` entries, beyond its end. Unlike a modelling
error it is not an answer to the request but aborts it. -/
structure OutOfRange where
  length : Nat
  index : Nat
  deriving Repr, DecidableEq

/-- The text of a lookup beyond the end of a table. -/
def OutOfRange.message (e : OutOfRange) : String :=
  "index out of bounds: the len is " ++ toString e.length ++ " but the index is " ++
    toString e.index

end MipLowering
