import MipLowering.Lowering.Emit
import MipLowering.Lowering.FlowBounds
/-!
# Flow relaxation of AllDifferent and global cardinality

Variables on one side, values on the other. Every pair of a variable `i` and a value `v` of its
domain gets a binary `f{id}[{i}]=={v}`, and

* `Σ_v x[i,v] = 1` (assignment, per variable, posted as each variable is handled),
* `lb[v] ≤ Σ_i x[i,v] ≤ ub[v]` (capacity, per value in increasing order),
* `lb ≤ 0` rows for demanded values that no domain holds,
* `var_i = Σ_v v · x[i,v]` (linking, per variable, posted last).

The domain of a variable is explicit: the value list of an enumerated integer variable, the
image of the base's domain under a view (truncated to integers, sorted, without repeats), or
the integers within the node's bounds, which must be fewer than the configured limit.

## Main definitions

* `MipLowering.domainValues` — the explicit domain of a node.
* `MipLowering.Lowering.encodeFlow`.
-/

namespace MipLowering

variable {α : Type} [Scalar α]

/-- The explicit integer domain of a node, in increasing order. -/
def domainValues (nodes : Array (Node α)) (limit : Nat) (id : Nat) :
    Except (ModelError α) (List Int) :=
  match nodes[id]? with
  | none => .error (.unknownNode id)
  | some n =>
    if n.continuous then .error (.continuousDomain id)
    else
      match n.kind with
      | .intVar _ _ (some vs) => .ok vs
      | .view _ base scale offset =>
        if _h : base < id then do
          let ds ← domainValues nodes limit base
          pure ((ds.map fun v => Scalar.toInt64 (scale * Scalar.ofInt v + offset)).mergeSort
            (· ≤ ·)).eraseReps
        else .error (.notEncoded id)
      | _ =>
        let lo := Scalar.ceil n.lower
        let hi := Scalar.floor n.upper
        let size := hi - lo + Scalar.one
        if !Scalar.isFinite size || decide ((Scalar.ofInt limit : α) < size) then
          .error (.domainTooLarge id (if Scalar.isFinite size then Scalar.toWord size
            else Scalar.wordMax) limit)
        else
          let a := Scalar.toInt64 lo
          let b := Scalar.toInt64 hi
          .ok ((List.range (b + 1 - a).toNat).map fun k => a + Int.ofNat k)
termination_by id

/-- The rows of a flow constraint under construction: every binary with the value it stands
for, in order of creation, and the linking rows. -/
structure FlowRows (α : Type) where
  cells : Array (Int × Nat) := #[]
  links : List (Row α) := []

/-- The capacity rows: for each value, in increasing order, the sum of the binaries that stand
for it. The sort is stable, so each row holds its binaries in order of creation. -/
def FlowRows.capacity (f : FlowRows α) : List (Int × Row α) :=
  let groups := (f.cells.toList.mergeSort (fun p q => p.1 ≤ q.1)).splitBy (fun p q => p.1 == q.1)
  groups.filterMap fun g => g.head?.map fun p =>
    (p.1, g.foldl (fun r q => r.addVar q.2 Scalar.one) (Row.empty Scalar.zero Scalar.zero))

namespace Lowering

/-- The binaries of variable number `i` of flow node `id`: one per value of its domain, its
assignment row posted, its linking row kept for later. -/
def flowVariable (id : Nat) (f : FlowRows α) (entry : Nat × Nat × List Int) :
    Lowering α (FlowRows α) := do
  let (i, x, dom) := entry
  let link ← fold (Row.empty Scalar.zero Scalar.zero) x Scalar.one
  let (assign, link, f) ← dom.foldlM
    (fun (acc : Row α × Row α × FlowRows α) v => do
      let bv ← addColumn ("f" ++ toString id ++ "[" ++ toString i ++ "]==" ++ toString v) .binary
        Scalar.zero Scalar.one
      pure (acc.1.addVar bv Scalar.one, acc.2.1.addVar bv (-(Scalar.ofInt v)),
        { acc.2.2 with cells := acc.2.2.cells.push (v, bv) }))
    (Row.empty Scalar.one Scalar.one, link, f)
  post assign
  pure { f with links := f.links ++ [link] }

/-- Lowers a flow constraint at top level. -/
def encodeFlow (id : Nat) (kind : FlowKind) (vars : List Nat) (values lb ub : List Int) :
    Lowering α Unit := do
  let b ← get
  let domains ← match vars.mapM (domainValues b.nodes b.config.maxFlowDomain) with
    | .ok ds => pure ds
    | .error e => throw e
  let bounds := FlowBounds.build kind domains values lb ub
  let entries := (List.range vars.length).zip (vars.zip domains)
  let f ← entries.foldlM (fun f e => flowVariable id f (e.1, e.2.1, e.2.2)) {}
  f.capacity.forM fun p => do
    let (lo, hi) := bounds.capacity p.1
    post (p.2.withBounds (Scalar.ofInt lo) (Scalar.ofInt hi))
  bounds.unreachable.forM fun p => post (Row.empty (Scalar.ofInt p.2) Scalar.infinity)
  f.links.forM post

end Lowering

end MipLowering
