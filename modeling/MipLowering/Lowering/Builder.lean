import MipLowering.Expr.Node
import MipLowering.Lowering.Config
/-!
# Model builders

A builder owns the node arena of a model, the flat model it lowers into, the cached `x ≠ 0`
readings of non-boolean logic operands, the nodes encoded by the add in progress, registered
argument arrays, and whether the model has been initialised (frozen). This module registers
nodes: every kind is validated against the arena when it is created, and gets value bounds
derived from its operands.

Derived bounds: a variable has its own bounds; a view `k · x + c` has the bounds of `k · x`
shifted by `c`; a sum adds the bounds of its weighted terms to its offset; relations, logic and
flow constraints lie in `[0, 1]`; an objective has the bounds of its expression. The bounds of
`k · x` are those of `k · lower` and `k · upper`, except that `0 · x` is `[0, 0]` even for an
unbounded `x`.

## Main definitions

* `MipLowering.Builder`, `MipLowering.Builder.new`, `MipLowering.Builder.withConfig`.
* `MipLowering.scaledBounds`, `MipLowering.Builder.derive` — validation and derived bounds.
* `MipLowering.Builder.addExpr` and the named constructors (`intVar`, `view`, `sum`, `rel`, …).
* `MipLowering.Builder.setRhs`, `MipLowering.Builder.addIntArray`,
  `MipLowering.Builder.addVarArray`.
-/

namespace MipLowering

/-- The state of a model under construction. -/
structure Builder (α : Type) where
  config : LoweringConfig α
  nodes : Array (Node α) := #[]
  model : FlatModel α := {}
  /-- Operand ids with the node of their cached `x ≠ 0` reading. -/
  readings : List (Nat × Nat) := []
  /-- Nodes encoded by the add in progress, in order; empty between adds. -/
  encoded : List Nat := []
  intArrays : Array (List Int) := #[]
  varArrays : Array (List Nat) := #[]
  initialised : Bool := false

/-- Bounds of `k · x` for `x` within `[lower, upper]`; `0 · x` is `[0, 0]`. -/
def scaledBounds {α : Type} [Scalar α] (k lower upper : α) : α × α :=
  if k == Scalar.zero then (Scalar.zero, Scalar.zero)
  else
    let a := k * lower
    let b := k * upper
    (Scalar.min a b, Scalar.max a b)

/-- Bounds that are not NaN and not inverted. -/
def checkBounds {α : Type} [Scalar α] (lower upper : α) : Except (ModelError α) Unit :=
  if Scalar.isNaN lower || Scalar.isNaN upper || decide (upper < lower) then
    .error (.invalidBounds lower upper)
  else .ok ()

/-- A list of the expected length. -/
def checkLength {α : Type} (list : ArgumentList) (expected actual : Nat) :
    Except (ModelError α) Unit :=
  if actual == expected then .ok () else .error (.lengthMismatch list expected actual)

namespace Builder

variable {α : Type} [Scalar α]

/-- An empty builder with the default configuration. -/
def new : Builder α := { config := LoweringConfig.default }

/-- An empty builder with a validated configuration. -/
def withConfig (c : LoweringConfig α) : Except (ModelError α) (Builder α) := do
  c.validate
  pure { config := c }

/-- The node behind an id. -/
def node (b : Builder α) (id : Nat) : Except (ModelError α) (Node α) :=
  match b.nodes[id]? with
  | some n => .ok n
  | none => .error (.unknownNode id)

/-- The column backing a node, if it has been encoded as one. -/
def columnOf? (b : Builder α) (id : Nat) : Option Nat := b.nodes[id]?.bind Node.column?

/-- Fails unless every id is a node. -/
def checkNodes (b : Builder α) (ids : List Nat) : Except (ModelError α) Unit :=
  ids.forM fun id => do
    let _ ← b.node id

/-- The operands of a relation, logic or pair node exist, a constant operand is finite, and the
coefficient lists have their lengths. -/
def checkBinop (b : Builder α) : Kind α → Except (ModelError α) Unit
  | .rel _ lhs rhs => do
    let _ ← b.node lhs
    match rhs with
    | .node r => do
      let _ ← b.node r
    | .const k => if Scalar.isFinite k then .ok () else .error (.invalidBounds k k)
  | .not a => do
    let _ ← b.node a
  | .and x y | .or x y => b.checkNodes [x, y]
  | .precedence first second coefs => do
    b.checkNodes [first, second]
    checkLength .precedenceCoefficients 1 coefs.length
  | .noOverlap first second coefs => do
    b.checkNodes [first, second]
    checkLength .noOverlapCoefficients 2 coefs.length
  | _ => .ok ()

/-- The bounds and continuity of a weighted sum, from its offset. -/
def sumBounds (b : Builder α) (offset : α) (terms : List (Nat × Int)) :
    Except (ModelError α) (α × α × Bool) :=
  terms.foldlM
    (fun acc t => do
      let n ← b.node t.1
      let (x, y) := scaledBounds (Scalar.ofInt t.2) n.lower n.upper
      pure (acc.1 + x, acc.2.1 + y, acc.2.2 || n.continuous))
    (offset, offset, !Scalar.isWhole offset)

/-- Validates a kind against the arena. Returns the kind as stored (an integer variable with a
value list gets the list sorted without repeats and its bounds from the list), its bounds and
whether its value may be fractional. -/
def derive (b : Builder α) (k : Kind α) : Except (ModelError α) (Kind α × α × α × Bool) :=
  match k with
  | .floatVar lower upper => do
    checkBounds lower upper
    pure (k, lower, upper, true)
  | .intVar lower upper values => do
    let (lower, upper, values) ← match values with
      | some vs =>
        let vs := (vs.mergeSort (· ≤ ·)).eraseReps
        match vs.head?, vs.getLast? with
        | some lo, some hi => pure (lo, hi, some vs)
        | _, _ => .error .emptyDomain
      | none => pure (lower, upper, none)
    checkBounds (Scalar.ofInt lower : α) (Scalar.ofInt upper)
    pure (.intVar lower upper values, Scalar.ofInt lower, Scalar.ofInt upper, false)
  | .view _ base scale offset => do
    if !Scalar.isFinite scale || !Scalar.isFinite offset then
      .error (.invalidBounds scale offset)
    let n ← b.node base
    let (lo, hi) := scaledBounds scale n.lower n.upper
    pure (k, lo + offset, hi + offset,
      n.continuous || !Scalar.isWhole scale || !Scalar.isWhole offset)
  | .sum vars weights offset => do
    checkLength .sumWeights vars.length weights.length
    let (lo, hi, cont) ← b.sumBounds offset (vars.zip weights)
    pure (k, lo, hi, cont)
  | .flow kind vars values lb ub => do
    b.checkNodes vars
    match kind with
    | .allDifferent => checkLength .allDifferentValues 0 values.length
    | .gcc => do
      checkLength .gccLowerBounds values.length lb.length
      checkLength .gccUpperBounds values.length ub.length
      (lb.zip ub).forM fun p =>
        if p.1 < 0 || p.1 > p.2 then .error (.invalidBounds (Scalar.ofInt p.1) (Scalar.ofInt p.2))
        else .ok ()
    pure (k, Scalar.zero, Scalar.one, false)
  | .objective _ expr => do
    let n ← b.node expr
    pure (k, n.lower, n.upper, n.continuous)
  | _ => do
    b.checkBinop k
    pure (k, Scalar.zero, Scalar.one, false)

/-- Appends a node to the arena and returns its id. -/
def pushNode (b : Builder α) (n : Node α) : Nat × Builder α :=
  (b.nodes.size, { b with nodes := b.nodes.push n })

/-- Registers a validated node; refused once the model is initialised. -/
def addExpr (b : Builder α) (k : Kind α) : Except (ModelError α) (Nat × Builder α) := do
  if b.initialised then .error .frozen
  let (k, lower, upper, continuous) ← b.derive k
  pure (b.pushNode ⟨k, lower, upper, continuous, none⟩)

/-- An integer variable over `[lower, upper]`. -/
def intVar (b : Builder α) (lower upper : Int) : Except (ModelError α) (Nat × Builder α) :=
  b.addExpr (.intVar lower upper none)

/-- An integer variable taking exactly the listed values. -/
def intVarValues (b : Builder α) (values : List Int) : Except (ModelError α) (Nat × Builder α) :=
  b.addExpr (.intVar 0 0 (some values))

/-- An integer variable over `{0, 1}`. -/
def boolVar (b : Builder α) : Except (ModelError α) (Nat × Builder α) := b.intVar 0 1

/-- A continuous variable over `[lower, upper]`. -/
def floatVar (b : Builder α) (lower upper : α) : Except (ModelError α) (Nat × Builder α) :=
  b.addExpr (.floatVar lower upper)

/-- `x + offset`. -/
def sumView (b : Builder α) (x : Nat) (offset : α) : Except (ModelError α) (Nat × Builder α) :=
  b.addExpr (.view .shift x Scalar.one offset)

/-- `scale · x`. -/
def productView (b : Builder α) (x : Nat) (scale : α) : Except (ModelError α) (Nat × Builder α) :=
  b.addExpr (.view .scale x scale Scalar.zero)

/-- `scale · x + offset`. -/
def linearView (b : Builder α) (x : Nat) (scale offset : α) :
    Except (ModelError α) (Nat × Builder α) :=
  b.addExpr (.view .affine x scale offset)

/-- `offset + Σ weights[i] · vars[i]`. -/
def sum (b : Builder α) (vars : List Nat) (weights : List Int) (offset : α) :
    Except (ModelError α) (Nat × Builder α) :=
  b.addExpr (.sum vars weights offset)

/-- `a + rhs` for a node or a constant. -/
def plus (b : Builder α) (a : Nat) : Operand α → Except (ModelError α) (Nat × Builder α)
  | .node c => b.sum [a, c] [1, 1] Scalar.zero
  | .const k => b.sum [a] [1] k

/-- `a - rhs` for a node or a constant. -/
def minus (b : Builder α) (a : Nat) : Operand α → Except (ModelError α) (Nat × Builder α)
  | .node c => b.sum [a, c] [1, -1] Scalar.zero
  | .const k => b.sum [a] [1] (-k)

/-- `lhs rel rhs`. -/
def rel (b : Builder α) (r : Rel) (lhs : Nat) (rhs : Operand α) :
    Except (ModelError α) (Nat × Builder α) :=
  b.addExpr (.rel r lhs rhs)

/-- AllDifferent over the nodes. -/
def allDifferent (b : Builder α) (vars : List Nat) : Except (ModelError α) (Nat × Builder α) :=
  b.addExpr (.flow .allDifferent vars [] [] [])

/-- Global cardinality: `values[j]` is taken by between `lb[j]` and `ub[j]` of the nodes. -/
def gcc (b : Builder α) (vars : List Nat) (values lb ub : List Int) :
    Except (ModelError α) (Nat × Builder α) :=
  b.addExpr (.flow .gcc vars values lb ub)

/-- Pins a sum that has not been encoded yet to `k`: its bounds become `[k, k]`. -/
def setRhs (b : Builder α) (id : Nat) (k : α) : Except (ModelError α) (Builder α) := do
  if b.initialised then .error .frozen
  let n ← b.node id
  match n.kind with
  | .sum .. =>
    if n.encoding.isSome then .error (.alreadyEncoded id)
    else pure { b with nodes := b.nodes.setIfInBounds id { n with lower := k, upper := k } }
  | _ => .error (.wrongKind id)

/-- Registers an integer array and returns its index. -/
def addIntArray (b : Builder α) (xs : List Int) : Except (ModelError α) (Nat × Builder α) := do
  if b.initialised then .error .frozen
  pure (b.intArrays.size, { b with intArrays := b.intArrays.push xs })

/-- Registers an array of existing nodes and returns its index. -/
def addVarArray (b : Builder α) (ids : List Nat) : Except (ModelError α) (Nat × Builder α) := do
  if b.initialised then .error .frozen
  b.checkNodes ids
  pure (b.varArrays.size, { b with varArrays := b.varArrays.push ids })

end Builder

end MipLowering
