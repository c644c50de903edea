import MipLowering.Lowering.Emit
/-!
# Relations, logic and scheduling pairs

A relation between two operands is first folded into one row fragment `Σ cᵢ · vᵢ rel r`, where
`r` is the fragment's right-hand side. At top level it becomes a hard row (`≠` a disjunction
split by a binary `side`). Nested, it is reified into a binary indicator `z` with implications,
each a big-M row whose `M` is derived from the activity bounds of the fragment:

* `guards ⇒ Σ ≤ r` is `Σ + M · Σ guards ≤ r + M · |guards|`,
* `guards ⇒ Σ ≥ r` is `Σ - M · Σ guards ≥ r - M · |guards|`,

a negative guard `1 - y` being written with `y`. A strict relation is made non-strict by the
*separation*: `1` when integral separation is on and the fragment has a whole right-hand side,
whole coefficients and integral columns only, else `epsilon`.

Logic reads its operands as 0/1: a boolean node directly, any other node `x` through a node
`x ≠ 0` created on first use and cached.

## Main definitions

* `MipLowering.Lit`, `MipLowering.Reading`.
* `MipLowering.Lowering.implyLe`, `MipLowering.Lowering.implyGe` — guarded big-M rows.
* `MipLowering.Lowering.encodeRel` — a relation at top level or reified.
* `MipLowering.Lowering.reading`, `MipLowering.Lowering.encodeNot`,
  `MipLowering.Lowering.encodeAnd`, `MipLowering.Lowering.encodeOr`.
* `MipLowering.Lowering.encodeNoOverlap`.
-/

namespace MipLowering

/-- A binary column read as itself or as its complement. -/
structure Lit where
  column : Nat
  positive : Bool

/-- The complement of a literal. -/
def Lit.negate (l : Lit) : Lit := ⟨l.column, !l.positive⟩

/-- A 0/1 quantity of a logic row: a node or a column. -/
inductive Reading
  | node (id : Nat)
  | column (v : Nat)

namespace Lowering

variable {α : Type} [Scalar α]

/-- The gap between `Σ < r` and `Σ ≥ r` in a fragment. -/
def separation (expr : Row α) : Lowering α α := do
  let b ← get
  pure <|
    if b.config.integralSeparation && Scalar.isWhole expr.rhs && expr.isIntegral b.model.columns
    then Scalar.one else b.config.epsilon

/-- The big-M of an implication, which must be finite. -/
def bigM (id : Nat) (gap : α) : Lowering α α :=
  let m := Scalar.max gap Scalar.zero
  if Scalar.isFinite m then pure m else throw (.unboundedBigM id)

/-- Posts `guards ⇒ expr ≤ bound`. -/
def implyLe (id : Nat) (expr : Row α) (bound : α) (guards : List Lit) : Lowering α Unit := do
  let b ← get
  let m ← bigM id ((expr.activityBounds b.model.columns).2 - bound)
  let (row, rhs) := guards.foldl
    (fun acc l =>
      if l.positive then (acc.1.addVar l.column m, acc.2)
      else (acc.1.addVar l.column (-m), acc.2 - m))
    (expr, bound + m * Scalar.ofInt guards.length)
  post (row.withBounds Scalar.negInfinity rhs)

/-- Posts `guards ⇒ expr ≥ bound`. -/
def implyGe (id : Nat) (expr : Row α) (bound : α) (guards : List Lit) : Lowering α Unit := do
  let b ← get
  let m ← bigM id (bound - (expr.activityBounds b.model.columns).1)
  let (row, lhs) := guards.foldl
    (fun acc l =>
      if l.positive then (acc.1.addVar l.column (-m), acc.2)
      else (acc.1.addVar l.column m, acc.2 + m))
    (expr, bound - m * Scalar.ofInt guards.length)
  post (row.withBounds lhs Scalar.infinity)

/-- `on ⇒ expr ≤ holds` and `¬on ⇒ expr ≥ fails`, or with the sides exchanged when `upper` is
false. -/
def reifyBound (id : Nat) (expr : Row α) (holds fails : α) (on : Lit) (upper : Bool) :
    Lowering α Unit :=
  if upper then do
    implyLe id expr holds [on]
    implyGe id expr fails [on.negate]
  else do
    implyGe id expr holds [on]
    implyLe id expr fails [on.negate]

/-- `on ⇔ expr = r`: both bounds under `on`, and under `¬on` the disjunction `expr ≤ r - sep` or
`expr ≥ r + sep` split by a fresh binary `side`. -/
def reifyEq (id : Nat) (expr : Row α) (r sep : α) (on : Lit) : Lowering α Unit := do
  implyLe id expr r [on]
  implyGe id expr r [on]
  let y ← indicator id "side"
  implyLe id expr (r - sep) [on.negate, ⟨y, true⟩]
  implyGe id expr (r + sep) [on.negate, ⟨y, false⟩]

/-- A fresh indicator `b{id}.{tag}` equivalent to `expr ≤ rhs`. -/
def reifyLe (id : Nat) (expr : Row α) (tag : String) : Lowering α Nat := do
  let z ← indicator id tag
  let r := expr.rhs
  let sep ← separation expr
  reifyBound id expr r (r + sep) ⟨z, true⟩ true
  pure z

/-- The fragment of `a - rhs + shift`, its constant moved into the bounds: the relation
`a - rhs + shift rel 0` reads `terms rel fragment.rhs`. -/
def difference (a : Nat) (rhs : Operand α) (shift : α) : Lowering α (Row α) := do
  let r ← fold (Row.empty Scalar.zero Scalar.zero) a Scalar.one
  let r ← match rhs with
    | .node c => fold r c (-Scalar.one)
    | .const k => pure (r.addConstant (-k))
  pure (r.addConstant shift)

/-- Lowers `expr rel expr.rhs` for node `id`: at top level a row (for `≠`, two implications
on a fresh `side` binary), nested an indicator `b{id}` with its implications. -/
def encodeRel (id : Nat) (rel : Rel) (expr : Row α) (top : Bool) : Lowering α Encoding := do
  let r := expr.rhs
  let sep ← separation expr
  if top then
    let post2 (lhs rhs : α) : Lowering α Encoding := do
      post (expr.withBounds lhs rhs)
      pure .posted
    match rel with
    | .eq => post2 r r
    | .le => post2 Scalar.negInfinity r
    | .ge => post2 r Scalar.infinity
    | .lt => post2 Scalar.negInfinity (r - sep)
    | .gt => post2 (r + sep) Scalar.infinity
    | .ne =>
      let y ← indicator id "side"
      implyLe id expr (r - sep) [⟨y, true⟩]
      implyGe id expr (r + sep) [⟨y, false⟩]
      pure .posted
  else
    let z ← indicator id ""
    let on : Lit := ⟨z, true⟩
    match rel with
    | .le => reifyBound id expr r (r + sep) on true
    | .lt => reifyBound id expr (r - sep) r on true
    | .ge => reifyBound id expr r (r - sep) on false
    | .gt => reifyBound id expr (r + sep) r on false
    | .eq => reifyEq id expr r sep on
    | .ne => reifyEq id expr r sep on.negate
    pure (.column z)

/-- The 0/1 reading of a node: itself when boolean, else its cached `x ≠ 0` node, created and
encoded on first use. The operand is encoded already, so only the new node is lowered. -/
def reading (id : Nat) : Lowering α Reading := do
  let n ← nodeAt id
  if n.isBoolean then pure (.node id)
  else match (← get).readings.lookup id with
    | some ne => pure (.node ne)
    | none =>
      let ne ← pushNode ⟨.rel .ne id (.const Scalar.zero), Scalar.zero, Scalar.one, false, none⟩
      let expr ← difference id (.const Scalar.zero) Scalar.zero
      let e ← encodeRel ne .ne expr false
      setEncoding ne e
      modify fun b => { b with readings := (id, ne) :: b.readings }
      pure (.node ne)

/-- Adds `coef · reading` to a row. -/
def addReading (r : Row α) (x : Reading) (coef : α) : Lowering α (Row α) :=
  match x with
  | .node id => fold r id coef
  | .column v => pure (r.addVar v coef)

/-- The row `lhs ≤ Σ coef · readings ≤ rhs` (after `z` with coefficient `1`, if given). -/
def readingRow (lhs rhs : α) (z : Option Nat) (xs : List Reading) (coef : α) :
    Lowering α (Row α) :=
  let start := match z with
    | some v => (Row.empty lhs rhs).addVar v Scalar.one
    | none => Row.empty lhs rhs
  xs.foldlM (fun r x => addReading r x coef) start

/-- `z ≤ a`, `z ≤ b`, `z ≥ a + b - 1`. -/
def postAnd (z : Nat) (a b : Reading) : Lowering α Unit := do
  post (← readingRow Scalar.negInfinity Scalar.zero (some z) [a] (-Scalar.one))
  post (← readingRow Scalar.negInfinity Scalar.zero (some z) [b] (-Scalar.one))
  post (← readingRow (-Scalar.one) Scalar.infinity (some z) [a, b] (-Scalar.one))

/-- `z ≥ a`, `z ≥ b`, `z ≤ a + b`. -/
def postOr (z : Nat) (a b : Reading) : Lowering α Unit := do
  post (← readingRow Scalar.zero Scalar.infinity (some z) [a] (-Scalar.one))
  post (← readingRow Scalar.zero Scalar.infinity (some z) [b] (-Scalar.one))
  post (← readingRow Scalar.negInfinity Scalar.zero (some z) [a, b] (-Scalar.one))

/-- Negation: at top level `a ≤ 0`; nested an indicator `z` with `z + a = 1`. -/
def encodeNot (id a : Nat) (top : Bool) : Lowering α Encoding := do
  let x ← reading a
  if top then
    post (← readingRow Scalar.negInfinity Scalar.zero none [x] Scalar.one)
    pure .posted
  else
    let z ← indicator id ""
    post (← readingRow Scalar.one Scalar.one (some z) [x] Scalar.one)
    pure (.column z)

/-- Conjunction: at top level `a ≥ 1` and `b ≥ 1`; nested an indicator bound by `postAnd`. -/
def encodeAnd (id a b : Nat) (top : Bool) : Lowering α Encoding := do
  let x ← reading a
  let y ← reading b
  if top then
    post (← readingRow Scalar.one Scalar.infinity none [x] Scalar.one)
    post (← readingRow Scalar.one Scalar.infinity none [y] Scalar.one)
    pure .posted
  else
    let z ← indicator id ""
    postAnd z x y
    pure (.column z)

/-- Disjunction: at top level `a + b ≥ 1`; nested an indicator bound by `postOr`. -/
def encodeOr (id a b : Nat) (top : Bool) : Lowering α Encoding := do
  let x ← reading a
  let y ← reading b
  if top then
    post (← readingRow Scalar.one Scalar.infinity none [x, y] Scalar.one)
    pure .posted
  else
    let z ← indicator id ""
    postOr z x y
    pure (.column z)

/-- The `i`-th coefficient of a pair, `0` when missing. -/
def coef (coefs : List Int) (i : Nat) : α := Scalar.ofInt (coefs[i]?.getD 0)

/-- `first + coefs[0] ≤ second`. -/
def encodePrecedence (id first second : Nat) (coefs : List Int) (top : Bool) :
    Lowering α Encoding := do
  let expr ← difference first (.node second) (coef coefs 0)
  encodeRel id .le expr top

/-- `first + coefs[0] ≤ second` or `second + coefs[1] ≤ first`: at top level an order binary
`b{id}.ord` selects the side; nested each side gets an indicator (`before`, `after`) and `b{id}`
is their disjunction. -/
def encodeNoOverlap (id first second : Nat) (coefs : List Int) (top : Bool) :
    Lowering α Encoding := do
  let before ← difference first (.node second) (coef coefs 0)
  let after ← difference second (.node first) (coef coefs 1)
  if top then
    let order ← indicator id "ord"
    implyLe id before before.rhs [⟨order, true⟩]
    implyLe id after after.rhs [⟨order, false⟩]
    pure .posted
  else
    let zb ← reifyLe id before "before"
    let za ← reifyLe id after "after"
    let z ← indicator id ""
    postOr z (.column zb) (.column za)
    pure (.column z)

end Lowering

end MipLowering
