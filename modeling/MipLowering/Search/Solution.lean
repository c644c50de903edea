import MipLowering.Scalar
/-!
# Search outcomes

A search ends with a status (a satisfying assignment was found, none exists, or a limit was
reached first), the values of the best assignment, the objective value there, and counters of
the work done.

## Main definitions

* `MipLowering.Status`, `MipLowering.Stats`, `MipLowering.Solution`.
-/

namespace MipLowering

/-- The outcome class of a search. -/
inductive Status
  | unsat
  | sat
  | unknown
  deriving Repr, DecidableEq

namespace Status

/-- How a status is written. -/
def name : Status → String
  | .unsat => "Unsat"
  | .sat => "Sat"
  | .unknown => "Unknown"

/-- The numeric code of a status. -/
def code : Status → Nat
  | .unsat => 0
  | .sat => 1
  | .unknown => 2

end Status

/-- Work counters of a search. The enumeration propagates nothing, so `propagations` stays `0`. -/
structure Stats where
  backtracks : Nat := 0
  nodes : Nat := 0
  failures : Nat := 0
  checks : Nat := 0
  propagations : Nat := 0
  deriving Repr, DecidableEq

/-- Status, assignment (one value per column, empty without one), objective value, counters. -/
structure Solution (α : Type) where
  status : Status
  values : Array α := #[]
  objectiveValue : Option α := none
  stats : Stats := {}

namespace Solution

variable {α : Type}

/-- A satisfying assignment was found. -/
def isSat (s : Solution α) : Bool := s.status == .sat

/-- No assignment exists. -/
def isUnsat (s : Solution α) : Bool := s.status == .unsat

end Solution

end MipLowering
