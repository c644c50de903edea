import MipLowering.Lowering.Reify
import MipLowering.Lowering.Flow
/-!
# Adding nodes

Adding a root walks its tree depth first: the operands of a node are added (nested) before the
node itself, and a node already encoded is not encoded again. Encodings by kind:

| node | top level | nested |
|---|---|---|
| variable | column | column |
| view | folded, no column | folded, no column |
| sum | one row `lower ≤ sum ≤ upper` | column `s{id}` equal to the sum |
| relation, logic, pair | hard rows | indicator with big-M rows |
| AllDifferent, Gcc | flow rows | refused |
| objective | column `obj{expr}` equal to the expression | refused |

An integer variable with holes in its value list also gets one binary per value, with
`Σ bᵥ = 1` and `x = Σ v · bᵥ`. Adding at top level a relation or logic node that was first met
nested raises the lower bound of its indicator to `1`. An add that fails is rolled back to the
checkpoint taken before its walk.

## Main definitions

* `MipLowering.Lowering.encodeKind`, `MipLowering.Lowering.encode` — lower one node whose
  operands are encoded, and record its encoding.
* `MipLowering.Lowering.visit` — the depth-first walk.
* `MipLowering.Builder.checkpoint`, `MipLowering.Builder.rollback`.
* `MipLowering.Builder.addRun`, `MipLowering.Builder.add`.
-/

namespace MipLowering

namespace Lowering

variable {α : Type} [Scalar α]

/-- The values of a sorted list follow each other without gaps. -/
def contiguous : List Int → Bool
  | a :: b :: rest => b - a == 1 && contiguous (b :: rest)
  | _ => true

/-- The column `x{id}` of an integer variable; with holes in its value list, also a binary
`x{id}=={v}` per value, `Σ bᵥ = 1` and `x = Σ v · bᵥ`. -/
def encodeIntVar (id : Nat) (lower upper : Int) (values : Option (List Int)) : Lowering α Nat := do
  let name := "x" ++ toString id
  let x ← addColumn name .integer (Scalar.ofInt lower) (Scalar.ofInt upper)
  match values with
  | none => pure x
  | some vs =>
    if contiguous vs then pure x
    else
      modify fun b => { b with model := b.model.modifyColumn x fun c => { c with values := some vs } }
      let (oneHot, link) ← vs.foldlM
        (fun (acc : Row α × Row α) v => do
          let bv ← addColumn (name ++ "==" ++ toString v) .binary Scalar.zero Scalar.one
          pure (acc.1.addVar bv Scalar.one, acc.2.addVar bv (-(Scalar.ofInt v))))
        (Row.empty Scalar.one Scalar.one, (Row.empty Scalar.zero Scalar.zero).addVar x Scalar.one)
      post oneHot
      post link
      pure x

/-- The row `lhs ≤ offset + Σ wᵢ · xᵢ ≤ rhs` of sum node `id`, its constant moved into the
bounds. -/
def sumRow (id : Nat) (lhs rhs : α) : Lowering α (Row α) := do
  let n ← nodeAt id
  match n.kind with
  | .sum vars weights offset =>
    (vars.zip weights).foldlM (fun r t => fold r t.1 (Scalar.ofInt t.2))
      ((Row.empty lhs rhs).addConstant offset)
  | _ => pure (Row.empty lhs rhs)

/-- A sum: at top level the row `lower ≤ sum ≤ upper` over its derived bounds, the sum staying
affine; nested a column `s{id}` with `sum - s = 0`. -/
def encodeSum (id : Nat) (top : Bool) : Lowering α Encoding := do
  let n ← nodeAt id
  if top then
    post (← sumRow id n.lower n.upper)
    pure .affine
  else
    let s ← columnLike id "s"
    post ((← sumRow id Scalar.zero Scalar.zero).addVar s (-Scalar.one))
    pure (.column s)

/-- An objective, at top level only and once per model: a column `obj{expr}` with
`obj - expr = 0`, optimised in the given sense. -/
def encodeObjective (id : Nat) (sense : Sense) (expr : Nat) (top : Bool) : Lowering α Encoding := do
  if !top then throw (.notReifiable id)
  if (← get).model.objective.isSome then throw .duplicateObjective
  let o ← columnLike expr "obj"
  post (← fold ((Row.empty Scalar.zero Scalar.zero).addVar o Scalar.one) expr (-Scalar.one))
  modify fun b => { b with model := { b.model with objective := some ⟨sense, o⟩ } }
  pure (.column o)

/-- Lowers node `id` of kind `k`, whose operands are encoded, and returns its encoding. -/
def encodeKind (id : Nat) (k : Kind α) (top : Bool) : Lowering α Encoding :=
  match k with
  | .floatVar lower upper => Encoding.column <$> addColumn ("x" ++ toString id) .continuous lower upper
  | .intVar lower upper values => Encoding.column <$> encodeIntVar id lower upper values
  | .view .. => pure .affine
  | .sum .. => encodeSum id top
  | .rel r lhs rhs => do encodeRel id r (← difference lhs rhs Scalar.zero) top
  | .precedence first second coefs => encodePrecedence id first second coefs top
  | .noOverlap first second coefs => encodeNoOverlap id first second coefs top
  | .not a => encodeNot id a top
  | .and a b => encodeAnd id a b top
  | .or a b => encodeOr id a b top
  | .flow kind vars values lb ub => do
    if !top then throw (.notReifiable id)
    encodeFlow id kind vars values lb ub
    pure .posted
  | .objective sense expr => encodeObjective id sense expr top

/-- Lowers node `id`, whose operands are encoded, and records its encoding. -/
def encode (id : Nat) (top : Bool) : Lowering α Unit := do
  let n ← nodeAt id
  setEncoding id (← encodeKind id n.kind top)

/-- Raises the lower bound of a column to at least `1`. -/
def forceOn (v : Nat) : Lowering α Unit :=
  modify fun b =>
    { b with model := b.model.modifyColumn v fun c => { c with lower := Scalar.max c.lower Scalar.one } }

/-- The depth-first walk: an encoded node is left as it is (a relation or logic node asserted
at top level has its indicator forced on); otherwise its operands are visited nested, then it
is encoded. -/
def visit (id : Nat) (top : Bool) : Lowering α Unit := do
  let n ← nodeAt id
  match n.encoding with
  | some (.column v) => if top && n.kind.isBinop then forceOn v
  | some _ => pure ()
  | none =>
    n.kind.children.forM fun c =>
      if _h : c < id then visit c false else throw (.notEncoded c)
    encode id top
termination_by id

end Lowering

namespace Builder

variable {α : Type} [Scalar α]

/-- What an add restores when it fails: the sizes of the arena, of the list of encoded nodes and
of the flat model, and the objective. -/
structure Checkpoint where
  nodes : Nat
  encoded : Nat
  columns : Nat
  rows : Nat
  objective : Option Objective

/-- The checkpoint of a builder. -/
def checkpoint (b : Builder α) : Checkpoint :=
  ⟨b.nodes.size, b.encoded.length, b.model.columns.size, b.model.rows.size, b.model.objective⟩

/-- Undoes the work done since `mark`: the nodes encoded since then lose their encoding, the
arena, the flat model and the encoded list are cut back to their sizes at `mark`, readings
through dropped nodes are forgotten, and the objective is put back. -/
def rollback (b : Builder α) (mark : Checkpoint) : Builder α :=
  let nodes := (b.encoded.drop mark.encoded).foldl
    (fun ns id => ns.modify id fun n => { n with encoding := none }) b.nodes
  { b with
    nodes := nodes.take mark.nodes
    encoded := b.encoded.take mark.encoded
    readings := b.readings.filter (·.2 < mark.nodes)
    model := b.model.truncate mark.columns mark.rows mark.objective }

/-- Adds a root as a mutable builder does, returning the outcome with the builder left behind:
walks the root's tree and encodes every node not encoded yet, then clears the list of encoded
nodes; a walk that fails is rolled back to the checkpoint taken before it. Refused once the
model is initialised. -/
def addRun (b : Builder α) (id : Nat) : Except (ModelError α) Nat × Builder α :=
  if b.initialised then (.error .frozen, b)
  else match b.node id with
    | .error e => (.error e, b)
    | .ok _ =>
      match (Lowering.visit id true).run b with
      | .ok () b' => (.ok id, { b' with encoded := [] })
      | .error e b' => (.error e, b'.rollback b.checkpoint)

/-- Adds a root: the builder after a successful `addRun`, or its error. -/
def add (b : Builder α) (id : Nat) : Except (ModelError α) (Nat × Builder α) :=
  match b.addRun id with
  | (.ok n, b') => .ok (n, b')
  | (.error e, _) => .error e

end Builder

end MipLowering
