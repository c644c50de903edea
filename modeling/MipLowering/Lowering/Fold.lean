import MipLowering.Expr.Node
import MipLowering.Error
/-!
# Folding nodes into rows

Adding `c · node` to a row expands the node through what it was lowered as. A view
`k · x + d` moves `c · d` into the bounds and adds `(c · k) · x`; an affine sum moves
`c · offset` into the bounds and adds `(c · wᵢ) · xᵢ` for its terms; a node with a column adds a
term on that column; a posted constraint reads as the constant `1`. Any other node has not been
encoded yet. Operands always precede their node in the arena, which bounds the recursion.

## Main definitions

* `MipLowering.Row.addNode` — adds `c · node` to a row.
* `MipLowering.nodeValue` — the value of a node under an assignment of the columns.
-/

namespace MipLowering

namespace Row

variable {α : Type} [Scalar α]

/-- Adds `coef · id` to a row, expanding views and affine sums into their operands. A zero
coefficient adds nothing, but the node must exist. -/
def addNode (nodes : Array (Node α)) (r : Row α) (id : Nat) (coef : α) :
    Except (ModelError α) (Row α) :=
  match nodes[id]? with
  | none => .error (.unknownNode id)
  | some n =>
    if coef == Scalar.zero then .ok r
    else
      match n.kind, n.encoding with
      | .view _ base scale offset, _ =>
        if _h : base < id then addNode nodes (r.addConstant (coef * offset)) base (coef * scale)
        else .error (.notEncoded id)
      | _, some (.column v) => .ok (r.addVar v coef)
      | .sum vars weights offset, some .affine =>
        (vars.zip weights).foldlM
          (fun acc t =>
            if _h : t.1 < id then addNode nodes acc t.1 (coef * Scalar.ofInt t.2)
            else .error (.notEncoded id))
          (r.addConstant (coef * offset))
      | _, some .posted => .ok (r.addConstant coef)
      | _, _ => .error (.notEncoded id)
termination_by id

end Row

/-- The value of an encoded node under the column values `values`: the activity of the row
holding `1 · node`, less the constant moved into its bounds. -/
def nodeValue {α : Type} [Scalar α] (nodes : Array (Node α)) (values : Array α) (id : Nat) :
    Except (ModelError α) α := do
  let r ← (Row.empty Scalar.zero Scalar.zero).addNode nodes id Scalar.one
  pure (r.activity values - r.rhs)

end MipLowering
