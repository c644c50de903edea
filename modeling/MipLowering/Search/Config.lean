import MipLowering.Search.Restart
/-!
# Search configuration

The parameters a search receives: a failure limit (`0` for none), the names of the variable and
value heuristics, and an optional restart policy. The heuristics known to the enumeration are
`MinDomain` for variables (smallest domain first) and `Max` for values (largest first); any other
name keeps the column order and increasing values. Names must not be empty.

## Main definitions

* `MipLowering.SearchConfig`, `MipLowering.SearchConfig.validate`.
-/

namespace MipLowering

/-- Search parameters. -/
structure SearchConfig where
  failureLimit : Nat := 0
  varHeuristic : String := "Lex"
  valHeuristic : String := "Min"
  restart : Option RestartPolicy := none

namespace SearchConfig

/-- Non-empty heuristic names, then a valid restart policy. -/
def validate {α : Type} (c : SearchConfig) : Except (ModelError α) Unit :=
  if c.varHeuristic.isEmpty || c.valHeuristic.isEmpty then
    .error (.invalidConfig .emptyHeuristic)
  else match c.restart with
    | some p => p.validate
    | none => .ok ()

/-- Columns are branched on by increasing domain size. -/
def byMinDomain (c : SearchConfig) : Bool := c.varHeuristic == "MinDomain"

/-- Values are tried from the largest down. -/
def largestFirst (c : SearchConfig) : Bool := c.valHeuristic == "Max"

end SearchConfig

end MipLowering
