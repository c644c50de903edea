import MipLowering.Lowering.Builder
import MipLowering.Lowering.Fold
/-!
# Lowering steps

A lowering step reads and extends a builder or fails with a `ModelError`. A step that fails
keeps what it changed before failing, as a mutable builder does: undoing a failed add is the
job of `Builder.add`, which rolls the builder back to a checkpoint. This module holds the steps
that every encoding uses: reading nodes, adding columns and rows, folding nodes into rows, and
recording how a node was encoded, in the list that a rollback undoes.

Names of the columns a lowering adds: `x{id}` for a variable, `s{id}` for a nested sum,
`obj{expr}` for an objective, `b{id}` and `b{id}.{tag}` for indicators, `x{id}=={v}` and
`f{id}[{i}]=={v}` for the binaries of enumerated values.

## Main definitions

* `MipLowering.Lowering` — the monad of lowering steps.
* `MipLowering.Lowering.addColumn`, `MipLowering.Lowering.post`, `MipLowering.Lowering.fold`,
  `MipLowering.Lowering.indicator`, `MipLowering.Lowering.columnLike`.
-/

namespace MipLowering

/-- A step of the lowering: a change of the builder that may fail, keeping the builder it
reached when it fails. -/
abbrev Lowering (α : Type) := EStateM (ModelError α) (Builder α)

namespace Lowering

variable {α : Type} [Scalar α]

/-- The node behind an id. -/
def nodeAt (id : Nat) : Lowering α (Node α) := do
  let b ← get
  match b.node id with
  | .ok n => pure n
  | .error e => throw e

/-- Appends a node to the arena and returns its id. -/
def pushNode (n : Node α) : Lowering α Nat := modifyGet fun b => b.pushNode n

/-- Records how a node was lowered, and that the add in progress encoded it. -/
def setEncoding (id : Nat) (e : Encoding) : Lowering α Unit :=
  modify fun b =>
    { b with nodes := b.nodes.modify id (fun n => { n with encoding := some e }),
             encoded := b.encoded ++ [id] }

/-- Appends a column to the flat model and returns its position. -/
def addColumn (name : String) (kind : ColumnKind) (lower upper : α) : Lowering α Nat :=
  modifyGet fun b =>
    let (v, m) := b.model.addColumn name kind lower upper
    (v, { b with model := m })

/-- Appends a row to the flat model. -/
def post (r : Row α) : Lowering α Unit := modify fun b => { b with model := b.model.addRow r }

/-- Adds `coef · id` to a row through the encodings of the arena. -/
def fold (r : Row α) (id : Nat) (coef : α) : Lowering α (Row α) := do
  let b ← get
  match r.addNode b.nodes id coef with
  | .ok r => pure r
  | .error e => throw e

/-- A fresh binary indicator for node `id`: `b{id}`, or `b{id}.{tag}` for a non-empty tag. -/
def indicator (id : Nat) (tag : String) : Lowering α Nat :=
  let name := if tag.isEmpty then "b" ++ toString id else "b" ++ toString id ++ "." ++ tag
  addColumn name .binary Scalar.zero Scalar.one

/-- A fresh column `{pfx}{like}` with the bounds and integrality of node `like`. -/
def columnLike (like : Nat) (pfx : String) : Lowering α Nat := do
  let n ← nodeAt like
  addColumn (pfx ++ toString like) (if n.continuous then .continuous else .integer) n.lower n.upper

end Lowering

end MipLowering
