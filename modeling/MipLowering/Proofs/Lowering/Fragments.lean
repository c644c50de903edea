import MipLowering.Proofs.Lowering.Folding
import MipLowering.Proofs.Lowering.Relations

/-!
# Fragments and logic rows read as values of nodes

The rows of relations, scheduling pairs and logic connectives are built by folding nodes into
one row: `Lowering.difference a rhs d` folds the fragment `a - rhs + d`, `Lowering.readingRow`
folds a sum of 0/1 readings. Read with rationals, such a row gains the values of the nodes it
folds (`evalNode`), with its constant moved into both bounds (`Row.Adds`). So the fragment's
summed side less its right-hand side is `val a - val rhs + d`, and a row of readings holds
exactly when the sum of their values lies within the row's bounds.

## Main definitions

* `MipLowering.InBounds` — an assignment gives a column a finite value within its bounds.
* `MipLowering.Operand.value`, `MipLowering.Reading.value` — operands and readings read at an
  assignment of the columns.

## Main results

* `MipLowering.Lowering.difference_spec` — the fragment of a relation, read with rationals.
* `MipLowering.Lowering.readingRow_spec` — a row of readings holds exactly when the sum of
  their values lies within its bounds.
* `MipLowering.Lowering.reifyLe_spec` — the indicator of `expr ≤ rhs` and its two rows.
-/

namespace MipLowering

open ERat

/-- `V` gives column `v` of `cols` a finite value within the column's bounds. -/
def InBounds (cols : Array (Column ERat)) (V : Array ERat) (v : Nat) : Prop :=
  ∃ col x, cols[v]? = some col ∧ V.getD v Scalar.zero = .fin x ∧ col.lower ≤ .fin x ∧
    .fin x ≤ col.upper

namespace ERat

theorem zero_eq_fin : (Scalar.zero : ERat) = fin 0 := rfl

theorem one_eq_fin : (Scalar.one : ERat) = fin 1 := rfl

theorem sub_fin_le_fin (x : ERat) (k y : Rat) : x - fin k ≤ fin y ↔ x ≤ fin (y + k) := by
  cases x with
  | nan => exact iff_of_false (nan_le _) (nan_le _)
  | negInf => exact iff_of_true (negInf_le_fin _) (negInf_le_fin _)
  | fin p =>
    rw [fin_sub_fin, fin_le_fin, fin_le_fin]
    constructor <;> intro h <;> linarith
  | posInf => exact iff_of_false (posInf_le_fin _) (posInf_le_fin _)

theorem fin_le_sub_fin (x : ERat) (k y : Rat) : fin y ≤ x - fin k ↔ fin (y + k) ≤ x := by
  cases x with
  | nan => exact iff_of_false (le_nan _) (le_nan _)
  | negInf => exact iff_of_false (fin_le_negInf _) (fin_le_negInf _)
  | fin p =>
    rw [fin_sub_fin, fin_le_fin, fin_le_fin]
    constructor <;> intro h <;> linarith
  | posInf => exact iff_of_true (fin_le_posInf _) (fin_le_posInf _)

end ERat

namespace Row

theorem Merged.nonzeroCoefs {r : Row ERat} (hm : r.Merged) (hc : r.FiniteCoefs) :
    r.NonzeroCoefs := fun t ht => by
  obtain ⟨q, hq⟩ := hc t ht
  refine ⟨q, fun h0 => ?_, hq⟩
  have hnz := hm.2 t ht
  rw [hq, h0] at hnz
  exact Bool.false_ne_true (hnz.symm.trans rfl)

theorem merged_empty {α : Type} [Scalar α] (lhs rhs : α) : (empty lhs rhs).Merged :=
  ⟨List.nodup_nil, fun _ ht => absurd ht List.not_mem_nil⟩

theorem finiteCoefs_empty (lhs rhs : ERat) : (empty lhs rhs).FiniteCoefs :=
  fun _ ht => absurd ht List.not_mem_nil

@[simp] theorem lhs_empty {α : Type} (lhs rhs : α) : (empty lhs rhs).lhs = lhs := rfl

@[simp] theorem rhs_empty {α : Type} (lhs rhs : α) : (empty lhs rhs).rhs = rhs := rfl

@[simp] theorem value_empty (lhs rhs : ERat) (V : Array ERat) : (empty lhs rhs).value V = 0 := rfl

/-- A row that gained `δ` holds exactly when the old bounds hold of the old summed side plus
`δ`: the constant moved into the bounds cancels. -/
theorem Adds.admits_iff {r r' : Row ERat} {δ : Array ERat → Rat} (h : Adds r r' δ)
    (hc : r'.FiniteCoefs) {W : Array ERat} (hW : r'.FiniteAt W) :
    r'.Admits W ↔ r.lhs ≤ .fin (r.value W + δ W) ∧ .fin (r.value W + δ W) ≤ r.rhs := by
  obtain ⟨k, hl, hr, hv⟩ := h
  rw [Admits, activity_eq_value hc hW, hl, hr, hv, sub_fin_le_fin, fin_le_sub_fin, sub_add_cancel]

/-- An array prefix reads the same columns. -/
theorem isIntegral_push {α : Type} [Scalar α] {r : Row α} {cols : Array (Column α)}
    (hon : ∀ t ∈ r.terms, t.1 < cols.size) (c : Column α) :
    r.isIntegral (cols.push c) = r.isIntegral cols := by
  unfold isIntegral
  rw [Bool.eq_iff_iff, List.all_eq_true, List.all_eq_true]
  refine forall₂_congr fun t ht => ?_
  rw [Array.getElem?_push, if_neg (Nat.ne_of_lt (hon t ht))]

/-- An assignment that agrees with `V` on the columns of `cols` reads the row as `V` does. -/
theorem Within.extend {r : Row ERat} {cols : Array (Column ERat)} {V W : Array ERat}
    (h : r.Within cols V) (hsize : V.size = cols.size)
    (hW : ∀ i < V.size, W.getD i Scalar.zero = V.getD i Scalar.zero) :
    r.Within cols W ∧ r.value W = r.value V := by
  have hagree : ∀ t ∈ r.terms, W.getD t.1 Scalar.zero = V.getD t.1 Scalar.zero :=
    fun t ht => hW t.1 (hsize ▸ h.lt_size ht)
  refine ⟨fun t ht => ?_, ?_⟩
  · obtain ⟨col, x, hcol, hx, hlo, hhi⟩ := h t ht
    exact ⟨col, x, hcol, (hagree t ht).trans hx, hlo, hhi⟩
  · unfold value
    congr 1
    exact List.map_congr_left fun t ht => by rw [hagree t ht]

/-- Below a node backed by a column lies that node only. -/
theorem below_of_column {α : Type} [Scalar α] {nodes : Array (Node α)} {id : Nat} {n : Node α}
    {v : Nat} (hn : nodes[id]? = some n) (hx : n.expansion = .column v) {m : Nat}
    (h : Below nodes id m) : m = id := by
  cases h with
  | refl => rfl
  | view hn' hx' _ =>
    rw [hn] at hn'
    cases hn'
    rw [hx] at hx'
    cases hx'
  | sum hn' hx' _ _ =>
    rw [hn] at hn'
    cases hn'
    rw [hx] at hx'
    cases hx'

end Row

theorem finiteBelow_of_column {nodes : Array (Node ERat)} {id : Nat} {n : Node ERat} {v : Nat}
    (hn : nodes[id]? = some n) (hx : n.expansion = .column v) : FiniteBelow nodes id := by
  intro m n' hm hn'
  rw [Row.below_of_column hn hx hm, hn] at hn'
  cases hn'
  rw [hx]
  trivial

theorem columnOf_of_column {α : Type} [Scalar α] {nodes : Array (Node α)} {id : Nat} {n : Node α}
    {v : Nat} (hn : nodes[id]? = some n) (hx : n.expansion = .column v) {w : Nat}
    (h : Row.ColumnOf nodes id w) : w = v := by
  obtain ⟨m, n', hm, hn', hw⟩ := h
  rw [Row.below_of_column hn hx hm, hn] at hn'
  cases hn'
  rw [hx] at hw
  cases hw
  rfl

/-! ### Operands and readings read with rationals -/

/-- The value of an operand at `V`: the value of its node, or the constant. -/
def Operand.value (nodes : Array (Node ERat)) (V : Array ERat) : Operand ERat → Rat
  | .node c => evalNode nodes V c
  | .const k => k.toRat

/-- The fold of an operand meets finite scales and offsets only, and a constant is finite. -/
def Operand.Finite (nodes : Array (Node ERat)) : Operand ERat → Prop
  | .node c => FiniteBelow nodes c
  | .const k => ∃ q, k = .fin q

/-- Column `v` backs a node below the operand. -/
def Operand.ColumnOf (nodes : Array (Node ERat)) (o : Operand ERat) (v : Nat) : Prop :=
  match o with
  | .node c => Row.ColumnOf nodes c v
  | .const _ => False

/-- The value of a 0/1 reading at `V`: the value of its node, or of its column. -/
def Reading.value (nodes : Array (Node ERat)) (V : Array ERat) : Reading → Rat
  | .node id => evalNode nodes V id
  | .column v => (V.getD v Scalar.zero).toRat

/-- The fold of a reading meets finite scales and offsets only. -/
def Reading.Finite (nodes : Array (Node ERat)) : Reading → Prop
  | .node id => FiniteBelow nodes id
  | .column _ => True

/-- Column `v` backs the reading. -/
def Reading.ColumnOf (nodes : Array (Node ERat)) (x : Reading) (v : Nat) : Prop :=
  match x with
  | .node id => Row.ColumnOf nodes id v
  | .column w => v = w

/-- `W` gives every column of the reading a finite value. -/
def Reading.FiniteAt (nodes : Array (Node ERat)) (W : Array ERat) (x : Reading) : Prop :=
  ∀ v, x.ColumnOf nodes v → ∃ w, W.getD v Scalar.zero = .fin w

namespace Lowering

section Folds

variable {b b' : Builder ERat} {r r' : Row ERat}

/-- Whether a lowering succeeds from `b`, as a test that a concrete run can decide. -/
def Succeeds {β : Type} (x : Lowering ERat β) (b : Builder ERat) : Bool :=
  match x.run b with
  | .ok _ _ => true
  | .error _ _ => false

theorem exists_run_ok {β : Type} {x : Lowering ERat β} (h : Succeeds x b = true) :
    ∃ a b', x.run b = .ok a b' := by
  cases hx : x.run b with
  | ok a b' => exact ⟨a, b', rfl⟩
  | error e b' =>
    rw [Succeeds, hx] at h
    cases h

/-- A lowering that can be undone leaves a builder that grew from the one it ran on. -/
theorem grows_of_run {β : Type} {x : Lowering ERat β} {Q : β → Prop} {a : β}
    (hx : Undoable b x Q) (h : x.run b = .ok a b') : b.Grows b' ∧ Q a := by
  have hrun := hx b (.refl b)
  rw [h] at hrun
  exact hrun

theorem fold_run_ok {α : Type} [Scalar α] {b b' : Builder α} {r r' : Row α} {id : Nat}
    {coef : α} (h : (fold r id coef).run b = .ok r' b') :
    b' = b ∧ r.addNode b.nodes id coef = .ok r' := by
  have hget : (get : Lowering α (Builder α)).run b = .ok b b := rfl
  rw [fold, run_bind, hget] at h
  dsimp only at h
  cases hfold : r.addNode b.nodes id coef with
  | error e =>
    rw [hfold] at h
    cases h
  | ok r'' =>
    rw [hfold] at h
    cases h
    exact ⟨rfl, rfl⟩

/-- Folding a node backed by a column adds a term on that column. -/
theorem fold_column_run {α : Type} [Scalar α] {b : Builder α} {r : Row α} {id v : Nat}
    {n : Node α} {coef : α} (hn : b.nodes[id]? = some n) (hx : n.expansion = .column v)
    (hc : (coef == Scalar.zero) = false) : (fold r id coef).run b = .ok (r.addVar v coef) b := by
  have hget : (get : Lowering α (Builder α)).run b = .ok b b := rfl
  rw [fold, run_bind, hget]
  dsimp only
  rw [Row.addNode_eq_expand hn r hc, hx]
  rfl

/-- The fragment `a - c + d` of two nodes backed by columns `v` and `w`. -/
theorem difference_columns_run {a c v w : Nat} {n m : Node ERat} (ha : b.nodes[a]? = some n)
    (hxa : n.expansion = .column v) (hc : b.nodes[c]? = some m) (hxc : m.expansion = .column w)
    (shift : ERat) :
    (difference a (.node c) shift).run b =
      .ok ((((Row.empty Scalar.zero Scalar.zero).addVar v Scalar.one).addVar w
        (-Scalar.one)).addConstant shift) b := by
  rw [difference, run_bind, fold_column_run ha hxa rfl]
  dsimp only
  rw [run_bind, fold_column_run hc hxc rfl]
  rfl

/-- Folding `q · id` keeps the builder and the row merged, adds `q` times the value of `id`,
and adds terms on the columns below `id` only. -/
theorem fold_spec (hord : OperandsPrecede b.nodes) {id : Nat} (hfin : FiniteBelow b.nodes id)
    {q : Rat} (hr : r.FiniteCoefs) (hm : r.Merged) (h : (fold r id (.fin q)).run b = .ok r' b') :
    b' = b ∧ r'.Merged ∧ r'.FiniteCoefs ∧ Row.Adds r r' (fun V => q * evalNode b.nodes V id) ∧
      ∀ t ∈ r'.terms, (∃ t' ∈ r.terms, t'.1 = t.1) ∨ Row.ColumnOf b.nodes id t.1 := by
  obtain ⟨rfl, hfold⟩ := fold_run_ok h
  obtain ⟨hr', hadds⟩ := Row.addNode_adds hord id hr
    (fun m _ n hm _ hn => hfin m n hm.toBelow hn) hfold
  exact ⟨rfl, Row.addNode_merged id hm hfold, hr', hadds, Row.addNode_terms id hfold⟩

/-- The fragment `a - rhs + d` of a relation, read with rationals: the builder is kept, the
terms are merged, finite and on the columns below `a` and `rhs`, both bounds are one rational
`β`, and the summed side less `β` is `val a - val rhs + d`. -/
theorem difference_spec (hord : OperandsPrecede b.nodes) {a : Nat} (ha : FiniteBelow b.nodes a)
    {rhs : Operand ERat} (hrhs : rhs.Finite b.nodes) {d : Rat} {expr : Row ERat}
    (h : (difference a rhs (.fin d)).run b = .ok expr b') :
    b' = b ∧ expr.Merged ∧ expr.FiniteCoefs ∧
      (∀ t ∈ expr.terms, Row.ColumnOf b.nodes a t.1 ∨ rhs.ColumnOf b.nodes t.1) ∧
      ∃ β : Rat, expr.lhs = .fin β ∧ expr.rhs = .fin β ∧
        ∀ V, expr.value V - β = evalNode b.nodes V a - rhs.value b.nodes V + d := by
  obtain ⟨r₁, b₁, h₁, hk⟩ := run_bind_ok h
  obtain ⟨rfl, hm₁, hc₁, hadds₁, hterms₁⟩ := fold_spec hord ha (Row.finiteCoefs_empty _ _)
    (Row.merged_empty _ _) h₁
  -- the second operand: a node folded with `-1`, or a constant moved into the bounds
  have hstep : ∃ r₂, expr = r₂.addConstant (.fin d) ∧ b' = b₁ ∧ r₂.Merged ∧ r₂.FiniteCoefs ∧
      Row.Adds r₁ r₂ (fun V => -rhs.value b₁.nodes V) ∧
      ∀ t ∈ r₂.terms, (∃ t' ∈ r₁.terms, t'.1 = t.1) ∨ rhs.ColumnOf b₁.nodes t.1 := by
    cases rhs with
    | node c =>
      obtain ⟨r₂, b₂, h₂, hk⟩ := run_bind_ok hk
      cases hk
      obtain ⟨rfl, hm₂, hc₂, hadds₂, hterms₂⟩ := fold_spec hord hrhs hc₁ hm₁ h₂
      exact ⟨r₂, rfl, rfl, hm₂, hc₂, hadds₂.congr fun V => by simp [Operand.value], hterms₂⟩
    | const k =>
      obtain ⟨q, rfl⟩ := hrhs
      cases hk
      refine ⟨_, rfl, rfl, hm₁.addConstant _, hc₁.addConstant _,
        (Row.adds_addConstant r₁ (-q)).congr fun V => by simp [Operand.value], ?_⟩
      exact fun t ht => .inl ⟨t, ht, rfl⟩
  obtain ⟨r₂, rfl, rfl, hm₂, hc₂, hadds₂, hterms₂⟩ := hstep
  obtain ⟨k, hl, hr, hv⟩ := (hadds₁.trans hadds₂).trans (Row.adds_addConstant r₂ d)
  refine ⟨rfl, hm₂.addConstant _, hc₂.addConstant _, fun t ht => ?_, -k, ?_, ?_, fun V => ?_⟩
  · rcases hterms₂ t ht with ⟨t', ht', heq⟩ | hcol
    · rcases hterms₁ t' ht' with ⟨t'', ht'', -⟩ | hcol
      · exact absurd ht'' List.not_mem_nil
      · exact .inl (heq ▸ hcol)
    · exact .inr hcol
  · rw [hl, Row.lhs_empty, zero_eq_fin, fin_sub_fin, zero_sub]
  · rw [hr, Row.rhs_empty, zero_eq_fin, fin_sub_fin, zero_sub]
  · rw [hv, Row.value_empty]
    ring

/-! ### Rows of readings -/

/-- Adding `q · x` for a reading `x` keeps the builder and the row merged, adds `q` times the
value of `x`, and adds terms on the columns of `x` only. -/
theorem addReading_spec (hord : OperandsPrecede b.nodes) {x : Reading} (hx : x.Finite b.nodes)
    {q : Rat} (hr : r.FiniteCoefs) (hm : r.Merged) (h : (addReading r x (.fin q)).run b = .ok r' b') :
    b' = b ∧ r'.Merged ∧ r'.FiniteCoefs ∧ Row.Adds r r' (fun V => q * x.value b.nodes V) ∧
      ∀ t ∈ r'.terms, (∃ t' ∈ r.terms, t'.1 = t.1) ∨ x.ColumnOf b.nodes t.1 := by
  cases x with
  | node id => exact fold_spec hord hx hr hm h
  | column v =>
    cases h
    refine ⟨rfl, hm.addVar _ _, hr.addVar v q, Row.adds_addVar hr v q, fun t ht => ?_⟩
    rcases Row.mem_addVar ht with heq | hold
    · exact .inr heq
    · exact .inl hold

theorem foldlM_addReading_spec (hord : OperandsPrecede b.nodes) {q : Rat} (xs : List Reading) :
    ∀ {r R : Row ERat} {b' : Builder ERat}, (∀ x ∈ xs, x.Finite b.nodes) →
      r.FiniteCoefs → r.Merged →
      (xs.foldlM (fun r x => addReading r x (.fin q)) r).run b = .ok R b' →
      b' = b ∧ R.Merged ∧ R.FiniteCoefs ∧
        Row.Adds r R (fun V => (xs.map fun x => q * x.value b.nodes V).sum) ∧
        ∀ t ∈ R.terms, (∃ t' ∈ r.terms, t'.1 = t.1) ∨ ∃ x ∈ xs, x.ColumnOf b.nodes t.1 := by
  induction xs with
  | nil =>
    intro r R b' _ hr hm h
    cases h
    exact ⟨rfl, hm, hr, (Row.Adds.refl r).congr fun V => by simp, fun t ht => .inl ⟨t, ht, rfl⟩⟩
  | cons x xs ih =>
    intro r R b' hxs hr hm h
    rw [List.foldlM_cons] at h
    obtain ⟨r₁, b₁, h₁, h₂⟩ := run_bind_ok h
    obtain ⟨rfl, hm₁, hc₁, hadds₁, hterms₁⟩ :=
      addReading_spec hord (hxs x List.mem_cons_self) hr hm h₁
    obtain ⟨rfl, hm₂, hc₂, hadds₂, hterms₂⟩ :=
      ih (fun y hy => hxs y (List.mem_cons_of_mem _ hy)) hc₁ hm₁ h₂
    refine ⟨rfl, hm₂, hc₂, (hadds₁.trans hadds₂).congr fun V => by simp, fun t ht => ?_⟩
    rcases hterms₂ t ht with ⟨t', ht', heq⟩ | ⟨y, hy, hcol⟩
    · rcases hterms₁ t' ht' with hold | hcol
      · exact .inl (heq ▸ hold)
      · exact .inr ⟨x, List.mem_cons_self, heq ▸ hcol⟩
    · exact .inr ⟨y, List.mem_cons_of_mem _ hy, hcol⟩

/-- The row of readings `lhs ≤ z + Σ q · xᵢ ≤ rhs` holds exactly when the sum of the values
lies within the bounds. -/
theorem readingRow_spec (hord : OperandsPrecede b.nodes) {lhs rhs : ERat} {z : Option Nat}
    {xs : List Reading} {q : Rat} (hxs : ∀ x ∈ xs, x.Finite b.nodes) {R : Row ERat}
    (h : (readingRow lhs rhs z xs (.fin q)).run b = .ok R b') :
    b' = b ∧ ∀ W,
      (∀ v, z = some v → ∃ w, W.getD v Scalar.zero = .fin w) → (∀ x ∈ xs, x.FiniteAt b.nodes W) →
      (R.Admits W ↔
        lhs ≤ .fin ((z.map fun v => (W.getD v Scalar.zero).toRat).getD 0 +
          (xs.map fun x => q * x.value b.nodes W).sum) ∧
        .fin ((z.map fun v => (W.getD v Scalar.zero).toRat).getD 0 +
          (xs.map fun x => q * x.value b.nodes W).sum) ≤ rhs) := by
  -- the row starts from `z` with coefficient `1`, when given
  have hstart : ∃ r₀ : Row ERat, r₀.Merged ∧ r₀.FiniteCoefs ∧
      (readingRow lhs rhs z xs (.fin q)).run b =
        (xs.foldlM (fun r x => addReading r x (.fin q)) r₀).run b ∧
      Row.Adds (Row.empty lhs rhs) r₀
        (fun V => (z.map fun v => (V.getD v Scalar.zero).toRat).getD 0) ∧
      ∀ t ∈ r₀.terms, z = some t.1 := by
    cases z with
    | none =>
      exact ⟨Row.empty lhs rhs, Row.merged_empty _ _, Row.finiteCoefs_empty _ _, rfl,
        (Row.Adds.refl _).congr fun V => rfl, fun t ht => absurd ht List.not_mem_nil⟩
    | some v =>
      refine ⟨(Row.empty lhs rhs).addVar v (.fin 1), (Row.merged_empty _ _).addVar _ _,
        (Row.finiteCoefs_empty _ _).addVar v 1, rfl,
        (Row.adds_addVar (Row.finiteCoefs_empty _ _) v 1).congr fun V => by simp, fun t ht => ?_⟩
      rcases Row.mem_addVar ht with heq | ⟨t', ht', -⟩
      · rw [heq]
      · exact absurd ht' List.not_mem_nil
  obtain ⟨r₀, hm₀, hc₀, hrun, hadds₀, hterms₀⟩ := hstart
  rw [hrun] at h
  obtain ⟨rfl, -, hc, hadds, hterms⟩ := foldlM_addReading_spec hord xs hxs hc₀ hm₀ h
  refine ⟨rfl, fun W hzW hxsW => ?_⟩
  have hfin : R.FiniteAt W := fun t ht => by
    rcases hterms t ht with ⟨t', ht', heq⟩ | ⟨x, hx, hcol⟩
    · exact hzW t.1 (heq ▸ hterms₀ t' ht')
    · exact hxsW x hx t.1 hcol
  rw [(hadds₀.trans hadds).admits_iff hc hfin, Row.value_empty, zero_add]
  exact Iff.rfl

/-! ### The indicator of `expr ≤ rhs` -/

/-- Pushing a column keeps the separation of a fragment on the existing columns. -/
theorem separationOf_push {expr : Row ERat} {ε : Rat} (hconf : b'.config = b.config)
    {col : Column ERat} (hcols : b'.model.columns = b.model.columns.push col)
    (hon : ∀ t ∈ expr.terms, t.1 < b.model.columns.size) :
    separationOf b' expr ε = separationOf b expr ε := by
  unfold separationOf
  rw [hconf, hcols, Row.isIntegral_push hon]

/-- A fresh indicator leaves the arena as it is. -/
theorem indicator_nodes {id : Nat} {tag : String} {z : Nat}
    (h : (indicator id tag).run b = .ok z b') : b'.nodes = b.nodes := by
  have hrun : (indicator id tag).run b = .ok b.model.columns.size
      { b with model := (b.model.addColumn
        (if tag.isEmpty then "b" ++ toString id else "b" ++ toString id ++ "." ++ tag)
        .binary Scalar.zero Scalar.one).2 } := rfl
  rw [hrun] at h
  cases h
  rfl

/-- The two implications of `reifyBound` leave the arena as it is. -/
theorem reifyBound_nodes {id : Nat} {expr : Row ERat} {h f : ERat} {on : Lit} {upper : Bool}
    {u : Unit} (hrun : (reifyBound id expr h f on upper).run b = .ok u b') : b'.nodes = b.nodes := by
  cases upper
  · obtain ⟨_, b₁, h₁, h₂⟩ := run_bind_ok (show (implyGe id expr h [on] >>= fun _ =>
      implyLe id expr f [on.negate]).run b = .ok u b' from hrun)
    obtain ⟨-, rfl⟩ := implyGe_run_ok h₁
    obtain ⟨-, rfl⟩ := implyLe_run_ok h₂
    rfl
  · obtain ⟨_, b₁, h₁, h₂⟩ := run_bind_ok (show (implyLe id expr h [on] >>= fun _ =>
      implyGe id expr f [on.negate]).run b = .ok u b' from hrun)
    obtain ⟨-, rfl⟩ := implyLe_run_ok h₁
    obtain ⟨-, rfl⟩ := implyGe_run_ok h₂
    rfl

/-- `reifyLe`: a fresh indicator `z` with `z ⇒ expr ≤ r` and `¬z ⇒ expr ≥ r + sep`. -/
theorem reifyLe_spec {id : Nat} {expr : Row ERat} {tag : String} {z : Nat} {ε r : Rat}
    (hε : b.config.epsilon = .fin ε) (hnz : expr.NonzeroCoefs) (hr : expr.rhs = .fin r)
    (hon : ∀ t ∈ expr.terms, t.1 < b.model.columns.size)
    (h : (reifyLe id expr tag).run b = .ok z b') :
    z = b.model.columns.size ∧ b'.config = b.config ∧ b'.nodes = b.nodes ∧
      (∃ col, b'.model.columns = b.model.columns.push col) ∧
      b.model.rows.toList <+: b'.model.rows.toList ∧
      ∀ W zb, expr.Within b.model.columns W → W.getD z Scalar.zero = ofBool zb →
        (AddedRowsAdmit b b' W ↔ (zb = true → expr.value W ≤ r) ∧
          (zb = false → r + separationOf b expr ε ≤ expr.value W)) := by
  have hconf' := (grows_of_run (reifyLe_undoable id expr tag) h).1.config
  obtain ⟨z', b₁, hz, hk⟩ := run_bind_ok h
  obtain ⟨σ, b₂, hs, hk⟩ := run_bind_ok hk
  rw [separation_run] at hs
  cases hs
  obtain ⟨_, b₃, h₃, hk⟩ := run_bind_ok hk
  cases hk
  obtain ⟨-, hconf, -, col, hcols⟩ := indicator_run_ok hz
  rw [separation_fin (hconf ▸ hε), hr, fin_add_fin, separationOf_push hconf hcols hon] at h₃
  obtain ⟨hs₃, hsem⟩ := reifyBound_upper_spec hnz h₃
  obtain ⟨rfl, -, hpre, hstart⟩ := indicator_spec hz hs₃.1
  refine ⟨rfl, hconf', (reifyBound_nodes h₃).trans (indicator_nodes hz), ⟨col, hs₃.2.trans hcols⟩,
    hpre, fun W zb hW hzW => ?_⟩
  rw [hstart, hsem W zb (hcols ▸ hW.push_column col) hzW]

end Folds

end Lowering

end MipLowering
