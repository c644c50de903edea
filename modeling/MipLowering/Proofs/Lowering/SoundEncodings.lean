import MipLowering.Proofs.Lowering.Sound
import MipLowering.Proofs.Lowering.Relations
import Mathlib.Data.List.SplitBy

/-!
# Encodings keep builders sound

Every encoding of a node, and the depth-first walk that calls them, keeps a builder sound
(`Builder.Sound`) when it succeeds. Each lemma is stated for a frame `P`, a fact about builders
that every extension keeps: it holds after the step whenever it held before, and each step adds
its own facts about what it returns (a row on existing columns, an indicator column, an encoded
node).

The walk is proved by strong induction on the node id: the operands of a node are visited first
and are encoded afterwards, which is what recording the node's own encoding needs.

## Main results

* `MipLowering.Lowering.encodeRel_sustains`, `MipLowering.Lowering.reading_sustains`,
  `MipLowering.Lowering.encodeFlow_sustains`, `MipLowering.Lowering.encodeKind_sustains`.
* `MipLowering.Lowering.visit_sustains` — a successful walk leaves the node encoded.
-/

namespace MipLowering

/-- A 0/1 reading given as a column reads one of the first `n` columns. -/
def Reading.OnColumns (x : Reading) (n : Nat) : Prop := ∀ v, x = .column v → v < n

variable {α : Type}

/-- A fold whose every step adds a term on the column of the element to the row it carries. -/
theorem Row.foldl_addVar_onColumns [Scalar α] {γ τ : Type} {n : Nat} (row : τ → Row α) (col : γ → Nat)
    {step : τ → γ → τ} (hstep : ∀ acc y, ∃ c, row (step acc y) = (row acc).addVar (col y) c) :
    ∀ (l : List γ) (acc : τ), (row acc).OnColumns n → (∀ y ∈ l, col y < n) →
      (row (l.foldl step acc)).OnColumns n
  | [], _, h, _ => h
  | y :: l, acc, h, hl => by
    rw [List.foldl_cons]
    obtain ⟨c, hc⟩ := hstep acc y
    refine Row.foldl_addVar_onColumns row col hstep l _ ?_ fun y' hy' => hl y' (List.mem_cons_of_mem _ hy')
    rw [hc]
    exact h.addVar (hl y List.mem_cons_self) c

/-- The binaries and linking rows of a flow constraint under construction are on the first `n`
columns. -/
def FlowRows.OnColumns (f : FlowRows α) (n : Nat) : Prop :=
  (∀ c ∈ f.cells.toList, c.2 < n) ∧ ∀ r ∈ f.links, r.OnColumns n

theorem FlowRows.onColumns_empty (n : Nat) : ({} : FlowRows α).OnColumns n :=
  ⟨fun _ h => absurd h List.not_mem_nil, fun _ h => absurd h List.not_mem_nil⟩

theorem FlowRows.stable_onColumns (f : FlowRows α) :
    Builder.Stable fun b : Builder α => f.OnColumns b.model.columns.size :=
  fun _ _ h hf => ⟨fun c hc => Nat.lt_of_lt_of_le (hf.1 c hc) h.columns,
    fun r hr => (hf.2 r hr).mono h.columns⟩

/-- Every capacity row sums binaries of the flow, so it is on the columns of its cells. -/
theorem FlowRows.capacity_onColumns [Scalar α] {f : FlowRows α} {n : Nat} (hf : f.OnColumns n) :
    ∀ p ∈ f.capacity, p.2.OnColumns n := by
  intro p hp
  obtain ⟨g, hg, hgp⟩ := List.mem_filterMap.mp hp
  -- the cells of a group are cells of the flow: the groups split a sorted copy of the cells
  have hcells : ∀ q ∈ g, q.2 < n := by
    intro q hq
    have hflat := List.mem_flatten.mpr ⟨g, hg, hq⟩
    rw [List.flatten_splitBy] at hflat
    exact hf.1 q (List.mem_mergeSort.mp hflat)
  cases hhead : g.head? with
  | none =>
    rw [hhead] at hgp
    cases hgp
  | some q =>
    rw [hhead] at hgp
    cases hgp
    exact Row.foldl_addVar_onColumns id Prod.snd (fun _ _ => ⟨_, rfl⟩) g _
      (Row.onColumns_empty _ _ _) hcells

namespace Lowering

open Builder (Stable)

variable [Scalar α] {P : Builder α → Prop}

/-! ### Guarded rows -/

section Guards

variable {n : Nat}

theorem guardedLe_onColumns {m : α} {expr : Row α} {bound : α} {guards : List Lit}
    (he : expr.OnColumns n) (hg : ∀ l ∈ guards, l.column < n) :
    (guardedLe m expr bound guards).OnColumns n := by
  refine Row.OnColumns.withBounds
    (Row.foldl_addVar_onColumns Prod.fst Lit.column (fun acc l => ?_) _ _ he hg) _ _
  unfold leStep
  split
  · exact ⟨_, rfl⟩
  · exact ⟨_, rfl⟩

theorem guardedGe_onColumns {m : α} {expr : Row α} {bound : α} {guards : List Lit}
    (he : expr.OnColumns n) (hg : ∀ l ∈ guards, l.column < n) :
    (guardedGe m expr bound guards).OnColumns n := by
  refine Row.OnColumns.withBounds
    (Row.foldl_addVar_onColumns Prod.fst Lit.column (fun acc l => ?_) _ _ he hg) _ _
  unfold geStep
  split
  · exact ⟨_, rfl⟩
  · exact ⟨_, rfl⟩

end Guards

/-! ### Relations -/

theorem separation_sustains (expr : Row α) : Sustains P (separation expr) (fun _ => P) :=
  Sustains.get_bind fun _ => .pure fun _ h => h.1

theorem bigM_sustains (id : Nat) (gap : α) : Sustains P (bigM id gap) (fun _ => P) := by
  unfold bigM
  dsimp only
  split
  · exact .pure fun _ h => h
  · exact .throw

theorem implyLe_sustains (hP : Stable P) {id : Nat} {expr : Row α} {bound : α} {guards : List Lit}
    (h : ∀ b, P b → expr.OnColumns b.model.columns.size ∧
      ∀ l ∈ guards, l.column < b.model.columns.size) :
    Sustains P (implyLe id expr bound guards) (fun _ => P) := by
  intro b u b' hb hp hrun
  obtain ⟨-, rfl⟩ := implyLe_run_ok hrun
  exact ⟨Builder.extends_model le_rfl, hb.addRow (guardedLe_onColumns (h b hp).1 (h b hp).2),
    hP _ _ (Builder.extends_model le_rfl) hp⟩

theorem implyGe_sustains (hP : Stable P) {id : Nat} {expr : Row α} {bound : α} {guards : List Lit}
    (h : ∀ b, P b → expr.OnColumns b.model.columns.size ∧
      ∀ l ∈ guards, l.column < b.model.columns.size) :
    Sustains P (implyGe id expr bound guards) (fun _ => P) := by
  intro b u b' hb hp hrun
  obtain ⟨-, rfl⟩ := implyGe_run_ok hrun
  exact ⟨Builder.extends_model le_rfl, hb.addRow (guardedGe_onColumns (h b hp).1 (h b hp).2),
    hP _ _ (Builder.extends_model le_rfl) hp⟩

theorem reifyBound_sustains (hP : Stable P) {id : Nat} {expr : Row α} {holds fails : α} {on : Lit}
    (h : ∀ b, P b → expr.OnColumns b.model.columns.size ∧ on.column < b.model.columns.size)
    (upper : Bool) : Sustains P (reifyBound id expr holds fails on upper) (fun _ => P) := by
  -- both implications are guarded by `on` or its complement, on the same column
  have hon : ∀ b, P b → expr.OnColumns b.model.columns.size ∧
      ∀ l ∈ [on], l.column < b.model.columns.size :=
    fun b hp => ⟨(h b hp).1, List.forall_mem_singleton.mpr (h b hp).2⟩
  have hoff : ∀ b, P b → expr.OnColumns b.model.columns.size ∧
      ∀ l ∈ [on.negate], l.column < b.model.columns.size :=
    fun b hp => ⟨(h b hp).1, List.forall_mem_singleton.mpr (h b hp).2⟩
  unfold reifyBound
  split
  · exact (implyLe_sustains hP hon).bind fun _ => implyGe_sustains hP hoff
  · exact (implyGe_sustains hP hon).bind fun _ => implyLe_sustains hP hoff

theorem reifyEq_sustains (hP : Stable P) {id : Nat} {expr : Row α} {r sep : α} {on : Lit}
    (h : ∀ b, P b → expr.OnColumns b.model.columns.size ∧ on.column < b.model.columns.size) :
    Sustains P (reifyEq id expr r sep on) (fun _ => P) := by
  have hon : ∀ b, P b → expr.OnColumns b.model.columns.size ∧
      ∀ l ∈ [on], l.column < b.model.columns.size :=
    fun b hp => ⟨(h b hp).1, List.forall_mem_singleton.mpr (h b hp).2⟩
  refine (implyLe_sustains hP hon).bind fun _ => (implyGe_sustains hP hon).bind fun _ =>
    (indicator_sustains hP _ _).bind fun y => ?_
  -- the two sides of `¬on` are guarded by the complement of `on` and the fresh `side` binary
  have hside : ∀ (s : Bool) b, P b ∧ y < b.model.columns.size →
      expr.OnColumns b.model.columns.size ∧
        ∀ l ∈ [on.negate, ⟨y, s⟩], l.column < b.model.columns.size := by
    rintro s b ⟨hp, hy⟩
    refine ⟨(h b hp).1, fun l hl => ?_⟩
    rcases List.mem_pair.mp hl with rfl | rfl
    · exact (h b hp).2
    · exact hy
  have hPy : Stable fun b => P b ∧ y < b.model.columns.size := hP.and (Stable.lt_columns y)
  exact (implyLe_sustains hPy (hside true)).bind fun _ =>
    ((implyGe_sustains hPy (hside false)).mono fun _ _ h => h.1)

theorem reifyLe_sustains (hP : Stable P) {id : Nat} {expr : Row α}
    (h : ∀ b, P b → expr.OnColumns b.model.columns.size) (tag : String) :
    Sustains P (reifyLe id expr tag) (fun z b => P b ∧ z < b.model.columns.size) :=
  (indicator_sustains hP _ _).bind fun z => (separation_sustains _).bind fun _ =>
    (reifyBound_sustains (hP.and (Stable.lt_columns z)) (fun b hp => ⟨h b hp.1, hp.2⟩) _).bind
      fun _ => .pure fun _ h => h

/-- The fragment of a relation is a row on existing columns. -/
theorem difference_sustains (a : Nat) (rhs : Operand α) (shift : α) :
    Sustains P (difference a rhs shift) (fun r b => P b ∧ r.OnColumns b.model.columns.size) := by
  unfold difference
  refine ((fold_sustains _ _ _).weaken fun b hb => ⟨hb, Row.onColumns_empty _ _ _⟩).bind
    fun r => ?_
  dsimp only
  split
  · exact (fold_sustains _ _ _).bind fun _ => .pure fun _ h => ⟨h.1, h.2.addConstant _⟩
  · exact .pure fun _ h => ⟨h.1, (h.2.addConstant _).addConstant _⟩

/-- A relation over a fragment on existing columns is posted as rows on existing columns, or
reified into an indicator column. -/
theorem encodeRel_sustains (hP : Stable P) {id : Nat} {rel : Rel} {expr : Row α}
    (h : ∀ b, P b → expr.OnColumns b.model.columns.size) (top : Bool) :
    Sustains P (encodeRel id rel expr top) (fun e b => P b ∧ e.OnColumns b.model.columns.size) := by
  unfold encodeRel
  refine (separation_sustains _).bind fun _ => ?_
  split
  · split
    case h_6 =>
      -- `≠` at top level: two implications on a fresh `side` binary
      have hPy : ∀ y, Stable fun b => P b ∧ y < b.model.columns.size :=
        fun y => hP.and (Stable.lt_columns y)
      refine (indicator_sustains hP _ _).bind fun y => ?_
      have hside : ∀ (s : Bool) b, P b ∧ y < b.model.columns.size →
          expr.OnColumns b.model.columns.size ∧
            ∀ l ∈ [(⟨y, s⟩ : Lit)], l.column < b.model.columns.size :=
        fun s b hb => ⟨h b hb.1, List.forall_mem_singleton.mpr hb.2⟩
      exact (implyLe_sustains (hPy y) (hside true)).bind fun _ =>
        (implyGe_sustains (hPy y) (hside false)).bind fun _ =>
          .pure fun _ hb => ⟨hb.1, Encoding.onColumns_posted _⟩
    -- every other relation is one row
    all_goals
      refine ((post_sustains hP _).weaken fun b hb => ⟨hb, (h b hb).withBounds _ _⟩).bind
        fun _ => ?_
      exact .pure fun _ hb => ⟨hb, Encoding.onColumns_posted _⟩
  · refine (indicator_sustains hP _ _).bind fun z => ?_
    have hz : ∀ b, P b ∧ z < b.model.columns.size →
        expr.OnColumns b.model.columns.size ∧ z < b.model.columns.size :=
      fun b hb => ⟨h b hb.1, hb.2⟩
    have hPz : Stable fun b => P b ∧ z < b.model.columns.size := hP.and (Stable.lt_columns z)
    have hdone : Sustains (fun b => P b ∧ z < b.model.columns.size) (Pure.pure (Encoding.column z))
        (fun e b => P b ∧ e.OnColumns b.model.columns.size) :=
      .pure fun _ hb => ⟨hb.1, .column hb.2⟩
    dsimp only
    split
    case h_5 | h_6 => exact (reifyEq_sustains hPz hz).bind fun _ => hdone
    all_goals exact (reifyBound_sustains hPz hz _).bind fun _ => hdone

/-! ### Logic -/

theorem reading_onColumns_node (ne n : Nat) : Reading.OnColumns (.node ne) n := by
  intro _ h
  cases h

/-- The reading of an encoded operand: a boolean node, its cached reading, or a new node
`id ≠ 0`, lowered to an indicator and cached. -/
theorem reading_sustains (hP : Stable P) {id : Nat} (h : ∀ b, P b → b.Encoded id) :
    Sustains P (reading id) (fun x b => P b ∧ x.OnColumns b.model.columns.size) := by
  unfold reading
  refine (nodeAt_sustains id).bind fun n => ?_
  split
  · exact .pure fun _ hb => ⟨hb.1, reading_onColumns_node _ _⟩
  refine Sustains.get_bind fun _ => ?_
  split
  · exact .pure fun _ hb => ⟨hb.1.1, reading_onColumns_node _ _⟩
  -- the new node `id ≠ 0` keeps its kind through the lowering of its indicator
  let K : Kind α := .rel .ne id (.const Scalar.zero)
  have hPK : ∀ ne, Stable fun b => P b ∧ ∃ m : Node α, b.nodes[ne]? = some m ∧ m.kind = K :=
    fun ne => hP.and (Stable.kind ne K)
  have hpush : ∀ b, P b → ∀ c ∈ K.children, c < b.nodes.size := by
    intro b hb c hc
    obtain ⟨m, hm, -⟩ := h b hb
    rw [List.mem_singleton.mp hc]
    exact (Array.getElem?_eq_some_iff.mp hm).1
  refine ((pushNode_sustains hP hpush rfl).weaken fun _ hb => hb.1.1).bind fun ne => ?_
  refine ((difference_sustains id (.const Scalar.zero) Scalar.zero).weaken
    fun b hb => (⟨hb.1, _, hb.2, rfl⟩ : P b ∧ ∃ m : Node α, b.nodes[ne]? = some m ∧ m.kind = K)).bind
      fun expr => ?_
  refine (encodeRel_sustains ((hPK ne).and (Stable.onColumns expr)) (fun _ hb => hb.2)
    false).bind fun e => ?_
  -- recording the encoding needs the operand `id` of the new node to be encoded
  have hops : ∀ b, (P b ∧ ∃ m : Node α, b.nodes[ne]? = some m ∧ m.kind = K) ∧
      e.OnColumns b.model.columns.size →
      e.OnColumns b.model.columns.size ∧ b.OperandsEncoded ne := by
    rintro b ⟨⟨hb, m, hm, hk⟩, he⟩
    refine ⟨he, m, hm, fun c hc => ?_⟩
    rw [hk] at hc
    rw [List.mem_singleton.mp hc]
    exact h b hb
  refine ((setEncoding_sustains ((hPK ne).and (Stable.columns_lt _)) hops).weaken
    fun _ hb => ⟨hb.1.1, hb.2⟩).bind fun _ => ?_
  refine (Sustains.modify fun b hb hq => ⟨Builder.extends_readings _, hb.addReading ?_,
    hP _ _ (Builder.extends_readings _) hq.1.1.1⟩).bind fun _ =>
      .pure fun _ hb => ⟨hb, reading_onColumns_node _ _⟩
  -- the cached node has kind `id ≠ 0` and is encoded
  obtain ⟨⟨⟨-, m, hm, hk⟩, -⟩, m', hm', hs⟩ := hq
  rw [hm, Option.some.injEq] at hm'
  exact ⟨m, hm, hk, hm' ▸ hs⟩

theorem addReading_sustains {r : Row α} {x : Reading}
    (hx : ∀ b, P b → x.OnColumns b.model.columns.size) (coef : α) :
    Sustains (fun b => P b ∧ r.OnColumns b.model.columns.size) (addReading r x coef)
      (fun r' b => P b ∧ r'.OnColumns b.model.columns.size) := by
  unfold addReading
  split
  · exact fold_sustains _ _ _
  · exact .pure fun b hb => ⟨hb.1, hb.2.addVar (hx b hb.1 _ rfl) _⟩

/-- A row of readings on existing columns, after an indicator on an existing column. -/
theorem readingRow_sustains {lhs rhs : α} {z : Option Nat} {xs : List Reading} {coef : α}
    (hz : ∀ b, P b → ∀ v, z = some v → v < b.model.columns.size)
    (hxs : ∀ b, P b → ∀ x ∈ xs, x.OnColumns b.model.columns.size) :
    Sustains P (readingRow lhs rhs z xs coef) (fun r b => P b ∧ r.OnColumns b.model.columns.size) := by
  have hfold : ∀ start : Row α, Sustains (fun b => P b ∧ start.OnColumns b.model.columns.size)
      (xs.foldlM (fun r x => addReading r x coef) start)
      (fun r b => P b ∧ r.OnColumns b.model.columns.size) :=
    fun _ => Sustains.foldlM fun _ x hx => addReading_sustains (fun b hb => hxs b hb x hx) _
  unfold readingRow
  cases z with
  | none => exact (hfold _).weaken fun _ hb => ⟨hb, Row.onColumns_empty _ _ _⟩
  | some v =>
    exact (hfold _).weaken fun b hb => ⟨hb, (Row.onColumns_empty _ _ _).addVar (hz b hb v rfl) _⟩

/-- Three rows tying an indicator `z` to two readings, as conjunction and disjunction post them. -/
theorem threeRows_sustains (hP : Stable P) {z : Nat} {x y : Reading}
    (h : ∀ b, P b → z < b.model.columns.size ∧ x.OnColumns b.model.columns.size ∧
      y.OnColumns b.model.columns.size) (l₁ r₁ l₂ r₂ l₃ r₃ : α) :
    Sustains P (do
      post (← readingRow l₁ r₁ (some z) [x] (-Scalar.one))
      post (← readingRow l₂ r₂ (some z) [y] (-Scalar.one))
      post (← readingRow l₃ r₃ (some z) [x, y] (-Scalar.one))) (fun _ => P) := by
  have hz : ∀ b, P b → ∀ v, some z = some v → v < b.model.columns.size := by
    rintro b hb v ⟨⟩
    exact (h b hb).1
  refine (readingRow_sustains hz fun b hb => by simp [(h b hb).2.1]).bind fun r => ?_
  refine (post_sustains hP r).bind fun _ => ?_
  refine (readingRow_sustains hz fun b hb => by simp [(h b hb).2.2]).bind fun r => ?_
  refine (post_sustains hP r).bind fun _ => ?_
  refine (readingRow_sustains hz fun b hb => by simp [(h b hb).2.1, (h b hb).2.2]).bind fun r => ?_
  exact post_sustains hP r

theorem postAnd_sustains (hP : Stable P) {z : Nat} {x y : Reading}
    (h : ∀ b, P b → z < b.model.columns.size ∧ x.OnColumns b.model.columns.size ∧
      y.OnColumns b.model.columns.size) :
    Sustains P (postAnd z x y) (fun _ => P) :=
  threeRows_sustains hP h _ _ _ _ _ _

theorem postOr_sustains (hP : Stable P) {z : Nat} {x y : Reading}
    (h : ∀ b, P b → z < b.model.columns.size ∧ x.OnColumns b.model.columns.size ∧
      y.OnColumns b.model.columns.size) :
    Sustains P (postOr z x y) (fun _ => P) :=
  threeRows_sustains hP h _ _ _ _ _ _

theorem encodeNot_sustains (hP : Stable P) {id a : Nat} (h : ∀ b, P b → b.Encoded a) (top : Bool) :
    Sustains P (encodeNot id a top) (fun e b => P b ∧ e.OnColumns b.model.columns.size) := by
  unfold encodeNot
  refine (reading_sustains hP h).bind fun x => ?_
  have hPx : Stable fun b => P b ∧ x.OnColumns b.model.columns.size := hP.and (Stable.columns_lt _)
  have hx : ∀ b, P b ∧ x.OnColumns b.model.columns.size →
      ∀ y ∈ [x], y.OnColumns b.model.columns.size :=
    fun _ hb => List.forall_mem_singleton.mpr hb.2
  split
  · refine (readingRow_sustains (by simp) hx).bind fun r => ?_
    exact (post_sustains hPx r).bind fun _ => .pure fun _ hb => ⟨hb.1, Encoding.onColumns_posted _⟩
  · refine (indicator_sustains hPx _ _).bind fun z => ?_
    refine (readingRow_sustains (fun _ hb v hv => Option.some.inj hv ▸ hb.2)
      fun b hb => hx b hb.1).bind fun r => ?_
    exact (post_sustains (hPx.and (Stable.lt_columns z)) r).bind fun _ =>
      .pure fun _ hb => ⟨hb.1.1, .column hb.2⟩

theorem encodeAnd_sustains (hP : Stable P) {id a c : Nat}
    (h : ∀ b, P b → b.Encoded a ∧ b.Encoded c) (top : Bool) :
    Sustains P (encodeAnd id a c top) (fun e b => P b ∧ e.OnColumns b.model.columns.size) := by
  unfold encodeAnd
  refine (reading_sustains hP fun b hb => (h b hb).1).bind fun x => ?_
  have hPx : Stable fun b => P b ∧ x.OnColumns b.model.columns.size := hP.and (Stable.columns_lt _)
  refine (reading_sustains hPx fun b hb => (h b hb.1).2).bind fun y => ?_
  have hPxy : Stable fun b => (P b ∧ x.OnColumns b.model.columns.size) ∧
      y.OnColumns b.model.columns.size := hPx.and (Stable.columns_lt _)
  split
  · -- each operand is a row `reading ≥ 1`
    refine (readingRow_sustains (by simp) fun _ hb => by simp [hb.1.2]).bind fun r => ?_
    refine (post_sustains hPxy r).bind fun _ => ?_
    refine (readingRow_sustains (by simp) fun _ hb => by simp [hb.2]).bind fun r => ?_
    exact (post_sustains hPxy r).bind fun _ => .pure fun _ hb => ⟨hb.1.1, Encoding.onColumns_posted _⟩
  · refine (indicator_sustains hPxy _ _).bind fun z => ?_
    exact (postAnd_sustains (hPxy.and (Stable.lt_columns z)) fun _ hb => ⟨hb.2, hb.1.1.2, hb.1.2⟩).bind
      fun _ => .pure fun _ hb => ⟨hb.1.1.1, .column hb.2⟩

theorem encodeOr_sustains (hP : Stable P) {id a c : Nat}
    (h : ∀ b, P b → b.Encoded a ∧ b.Encoded c) (top : Bool) :
    Sustains P (encodeOr id a c top) (fun e b => P b ∧ e.OnColumns b.model.columns.size) := by
  unfold encodeOr
  refine (reading_sustains hP fun b hb => (h b hb).1).bind fun x => ?_
  have hPx : Stable fun b => P b ∧ x.OnColumns b.model.columns.size := hP.and (Stable.columns_lt _)
  refine (reading_sustains hPx fun b hb => (h b hb.1).2).bind fun y => ?_
  have hPxy : Stable fun b => (P b ∧ x.OnColumns b.model.columns.size) ∧
      y.OnColumns b.model.columns.size := hPx.and (Stable.columns_lt _)
  split
  · -- one row `a + b ≥ 1`
    refine (readingRow_sustains (by simp) fun _ hb => by simp [hb.1.2, hb.2]).bind fun r => ?_
    exact (post_sustains hPxy r).bind fun _ => .pure fun _ hb => ⟨hb.1.1, Encoding.onColumns_posted _⟩
  · refine (indicator_sustains hPxy _ _).bind fun z => ?_
    exact (postOr_sustains (hPxy.and (Stable.lt_columns z)) fun _ hb => ⟨hb.2, hb.1.1.2, hb.1.2⟩).bind
      fun _ => .pure fun _ hb => ⟨hb.1.1.1, .column hb.2⟩

/-! ### Scheduling pairs -/

theorem encodePrecedence_sustains (hP : Stable P) (id first second : Nat) (coefs : List Int)
    (top : Bool) :
    Sustains P (encodePrecedence id first second coefs top)
      (fun e b => P b ∧ e.OnColumns b.model.columns.size) :=
  (difference_sustains _ _ _).bind fun expr =>
    (encodeRel_sustains (hP.and (Stable.onColumns expr)) (fun _ hb => hb.2) top).mono
      fun _ _ hb => ⟨hb.1.1, hb.2⟩

theorem encodeNoOverlap_sustains (hP : Stable P) (id first second : Nat) (coefs : List Int)
    (top : Bool) :
    Sustains P (encodeNoOverlap id first second coefs top)
      (fun e b => P b ∧ e.OnColumns b.model.columns.size) := by
  unfold encodeNoOverlap
  refine (difference_sustains _ _ _).bind fun before => (difference_sustains _ _ _).bind
    fun after => ?_
  -- both fragments stay on existing columns through the rest of the lowering
  have hP₂ : Stable fun b => (P b ∧ before.OnColumns b.model.columns.size) ∧
      after.OnColumns b.model.columns.size :=
    (hP.and (Stable.onColumns before)).and (Stable.onColumns after)
  split
  · refine (indicator_sustains hP₂ _ _).bind fun order => ?_
    have hside : ∀ (s : Bool) (r : Row α), (∀ b, (P b ∧ before.OnColumns b.model.columns.size) ∧
        after.OnColumns b.model.columns.size → r.OnColumns b.model.columns.size) →
        ∀ b, ((P b ∧ before.OnColumns b.model.columns.size) ∧
          after.OnColumns b.model.columns.size) ∧ order < b.model.columns.size →
        r.OnColumns b.model.columns.size ∧
          ∀ l ∈ [(⟨order, s⟩ : Lit)], l.column < b.model.columns.size :=
      fun _ _ hr b hb => ⟨hr b hb.1, List.forall_mem_singleton.mpr hb.2⟩
    have hPo := hP₂.and (Stable.lt_columns order)
    exact (implyLe_sustains hPo (hside true before fun _ hb => hb.1.2)).bind fun _ =>
      (implyLe_sustains hPo (hside false after fun _ hb => hb.2)).bind fun _ =>
        .pure fun _ hb => ⟨hb.1.1.1, Encoding.onColumns_posted _⟩
  · refine (reifyLe_sustains hP₂ (fun _ hb => hb.1.2) _).bind fun zb => ?_
    have hPb := hP₂.and (Stable.lt_columns zb)
    refine (reifyLe_sustains hPb (fun _ hb => hb.1.2) _).bind fun za => ?_
    have hPa := hPb.and (Stable.lt_columns za)
    refine (indicator_sustains hPa _ _).bind fun z => ?_
    have hor : ∀ b, (((((P b ∧ before.OnColumns b.model.columns.size) ∧
        after.OnColumns b.model.columns.size) ∧ zb < b.model.columns.size) ∧
          za < b.model.columns.size) ∧ z < b.model.columns.size) →
        z < b.model.columns.size ∧ (Reading.column zb).OnColumns b.model.columns.size ∧
          (Reading.column za).OnColumns b.model.columns.size := by
      intro b hb
      refine ⟨hb.2, fun v hv => ?_, fun v hv => ?_⟩
      · cases hv
        exact hb.1.1.2
      · cases hv
        exact hb.1.2
    exact (postOr_sustains (hPa.and (Stable.lt_columns z)) hor).bind fun _ =>
      .pure fun _ hb => ⟨hb.1.1.1.1.1, .column hb.2⟩

/-! ### Flow constraints -/

/-- The binaries of one variable of a flow constraint: its assignment row is posted and its
linking row is kept, both on existing columns. -/
theorem flowVariable_sustains (hP : Stable P) (id : Nat) (f : FlowRows α)
    (entry : Nat × Nat × List Int) :
    Sustains (fun b => P b ∧ f.OnColumns b.model.columns.size) (flowVariable id f entry)
      (fun f' b => P b ∧ f'.OnColumns b.model.columns.size) := by
  obtain ⟨i, x, dom⟩ := entry
  unfold flowVariable
  refine ((fold_sustains _ _ _).weaken fun b hb => ⟨hb, Row.onColumns_empty _ _ _⟩).bind
    fun link => ?_
  -- the loop keeps the assignment row, the linking row and the cells on existing columns
  let I : Row α × Row α × FlowRows α → Builder α → Prop := fun acc b =>
    P b ∧ acc.1.OnColumns b.model.columns.size ∧ acc.2.1.OnColumns b.model.columns.size ∧
      acc.2.2.OnColumns b.model.columns.size
  have hI : ∀ acc, Stable (I acc) := fun acc =>
    hP.and ((Stable.onColumns _).and ((Stable.onColumns _).and (FlowRows.stable_onColumns _)))
  have hstep : ∀ (acc : Row α × Row α × FlowRows α) (v : Int), Sustains (I acc)
      (addColumn ("f" ++ toString id ++ "[" ++ toString i ++ "]==" ++ toString v) .binary
        Scalar.zero Scalar.one >>= fun bv =>
          Pure.pure (acc.1.addVar bv Scalar.one, acc.2.1.addVar bv (-(Scalar.ofInt v)),
            { acc.2.2 with cells := acc.2.2.cells.push (v, bv) })) I := by
    intro acc v
    refine (addColumn_sustains (hI acc) _ _ _ _).bind fun bv => .pure ?_
    rintro b ⟨⟨hb, ha, hl, hc, hlinks⟩, hbv⟩
    refine ⟨hb, ha.addVar hbv _, hl.addVar hbv _, fun c hc' => ?_, hlinks⟩
    simp only [Array.toList_push, List.mem_append, List.mem_singleton] at hc'
    rcases hc' with hc' | rfl
    · exact hc c hc'
    · exact hbv
  refine ((Sustains.foldlM fun acc v _ => hstep acc v).weaken
    fun b hb => ⟨hb.1.1, Row.onColumns_empty _ _ _, hb.2, hb.1.2⟩).bind fun res => ?_
  obtain ⟨assign, link', f'⟩ := res
  have hPf : Stable fun b => P b ∧ link'.OnColumns b.model.columns.size ∧
      f'.OnColumns b.model.columns.size :=
    hP.and ((Stable.onColumns link').and (FlowRows.stable_onColumns f'))
  refine ((post_sustains hPf assign).weaken
    fun b hb => ⟨⟨hb.1, hb.2.2.1, hb.2.2.2⟩, hb.2.1⟩).bind fun _ => .pure ?_
  rintro b ⟨hb, hl, hc, hlinks⟩
  refine ⟨hb, hc, fun r hr => ?_⟩
  rcases List.mem_append.mp hr with hr | hr
  · exact hlinks r hr
  · rw [List.mem_singleton.mp hr]
    exact hl

/-- A flow constraint posts its assignment, capacity and linking rows on its own binaries. -/
theorem encodeFlow_sustains (hP : Stable P) (id : Nat) (kind : FlowKind) (vars : List Nat)
    (values lb ub : List Int) :
    Sustains P (encodeFlow id kind vars values lb ub) (fun _ => P) := by
  unfold encodeFlow
  refine Sustains.get_bind fun _ => ?_
  dsimp only
  split
  · simp only [pure_bind]
    refine ((Sustains.foldlM fun f _ _ => flowVariable_sustains hP id f _).weaken
      fun b hb => ⟨hb.1, FlowRows.onColumns_empty _⟩).bind fun f => ?_
    have hPf : Stable fun b => P b ∧ f.OnColumns b.model.columns.size :=
      hP.and (FlowRows.stable_onColumns f)
    refine (Sustains.forM fun p hp => ?_).bind fun _ => ?_
    · exact (post_sustains hPf _).weaken
        fun _ hb => ⟨hb, (FlowRows.capacity_onColumns hb.2 p hp).withBounds _ _⟩
    refine (Sustains.forM fun _ _ => (post_sustains hPf _).weaken
      fun _ hb => ⟨hb, Row.onColumns_empty _ _ _⟩).bind fun _ => ?_
    exact (Sustains.forM fun r hr => (post_sustains hPf r).weaken
      fun _ hb => ⟨hb, hb.2.2 r hr⟩).mono fun _ _ hb => hb.1
  · exact .throw

/-! ### Variables, sums and objectives -/

/-- Changing one column of the model keeps every column, row and decision in place. -/
theorem modifyColumn_sustains (hP : Stable P) (v : Nat) (f : Column α → Column α) :
    Sustains P (modify fun b => { b with model := b.model.modifyColumn v f } : Lowering α PUnit)
      (fun _ => P) :=
  Sustains.modify fun b hb hp =>
    have hext := Builder.extends_model (b := b) (m := b.model.modifyColumn v f)
      (by simp [FlatModel.modifyColumn])
    ⟨hext, hb.modifyColumn v f, hP _ _ hext hp⟩

/-- An integer variable is a column; with holes in its value list, also one binary per value
and the rows that tie them to the column. -/
theorem encodeIntVar_sustains (hP : Stable P) (id : Nat) (lower upper : Int)
    (values : Option (List Int)) :
    Sustains P (encodeIntVar id lower upper values) (fun x b => P b ∧ x < b.model.columns.size) := by
  unfold encodeIntVar
  refine (addColumn_sustains hP _ _ _ _).bind fun x => ?_
  have hPx : Stable fun b => P b ∧ x < b.model.columns.size := hP.and (Stable.lt_columns x)
  split
  · exact .pure fun _ hb => hb
  split
  · exact .pure fun _ hb => hb
  refine (modifyColumn_sustains hPx _ _).bind fun _ => ?_
  -- the loop keeps the one-hot row and the linking row on existing columns
  let I : Row α × Row α → Builder α → Prop := fun acc b =>
    (P b ∧ x < b.model.columns.size) ∧ acc.1.OnColumns b.model.columns.size ∧
      acc.2.OnColumns b.model.columns.size
  have hI : ∀ acc, Stable (I acc) :=
    fun acc => hPx.and ((Stable.onColumns _).and (Stable.onColumns _))
  refine ((Sustains.foldlM fun acc _ _ => (addColumn_sustains (hI acc) _ _ _ _).bind fun _ =>
    .pure fun _ hb => ⟨hb.1.1, hb.1.2.1.addVar hb.2 _, hb.1.2.2.addVar hb.2 _⟩).weaken
      fun _ hb => (⟨hb, Row.onColumns_empty _ _ _,
        (Row.onColumns_empty _ _ _).addVar hb.2 _⟩ : I _ _)).bind fun res => ?_
  obtain ⟨oneHot, link⟩ := res
  have hPl : Stable fun b => (P b ∧ x < b.model.columns.size) ∧
      link.OnColumns b.model.columns.size := hPx.and (Stable.onColumns link)
  refine ((post_sustains hPl oneHot).weaken fun _ hb => ⟨⟨hb.1, hb.2.2⟩, hb.2.1⟩).bind fun _ => ?_
  exact (post_sustains hPx link).bind fun _ => .pure fun _ hb => hb

/-- The row of a sum node, its operands folded in through their encodings. -/
theorem sumRow_sustains (id : Nat) (lhs rhs : α) :
    Sustains P (sumRow id lhs rhs) (fun r b => P b ∧ r.OnColumns b.model.columns.size) := by
  unfold sumRow
  refine (nodeAt_sustains id).bind fun n => ?_
  split
  · exact (Sustains.foldlM fun acc t _ => fold_sustains acc t.1 _).weaken
      fun _ hb => ⟨hb.1, (Row.onColumns_empty _ _ _).addConstant _⟩
  · exact .pure fun _ hb => ⟨hb.1, Row.onColumns_empty _ _ _⟩

theorem encodeSum_sustains (hP : Stable P) (id : Nat) (top : Bool) :
    Sustains P (encodeSum id top) (fun e b => P b ∧ e.OnColumns b.model.columns.size) := by
  unfold encodeSum
  refine (nodeAt_sustains id).bind fun n => ?_
  split
  · refine ((sumRow_sustains id _ _).weaken fun _ hb => hb.1).bind fun r => ?_
    exact (post_sustains hP r).bind fun _ => .pure fun _ hb => ⟨hb, Encoding.onColumns_affine _⟩
  · refine ((columnLike_sustains hP _ _).weaken fun _ hb => hb.1).bind fun s => ?_
    have hPs : Stable fun b => P b ∧ s < b.model.columns.size := hP.and (Stable.lt_columns s)
    refine (sumRow_sustains id _ _).bind fun r => ?_
    exact ((post_sustains hPs _).weaken fun _ hb => ⟨hb.1, hb.2.addVar hb.1.2 _⟩).bind fun _ =>
      .pure fun _ hb => ⟨hb.1, .column hb.2⟩

/-- An objective is a column tied to its expression, and the objective of the model. -/
theorem encodeObjective_sustains (hP : Stable P) (id : Nat) (sense : Sense) (expr : Nat)
    (top : Bool) :
    Sustains P (encodeObjective id sense expr top)
      (fun e b => P b ∧ e.OnColumns b.model.columns.size) := by
  unfold encodeObjective
  split
  · exact .throw
  refine Sustains.get_bind fun _ => ?_
  split
  · exact .throw
  refine ((columnLike_sustains hP _ _).weaken fun _ hb => hb.1).bind fun o => ?_
  have hPo : Stable fun b => P b ∧ o < b.model.columns.size := hP.and (Stable.lt_columns o)
  refine ((fold_sustains _ _ _).weaken
    fun _ hb => ⟨hb, (Row.onColumns_empty _ _ _).addVar hb.2 _⟩).bind fun r => ?_
  refine (post_sustains hPo r).bind fun _ => ?_
  -- the objective names the new column
  have hobj : Sustains (fun b => P b ∧ o < b.model.columns.size)
      (modify fun b => { b with model := { b.model with objective := some ⟨sense, o⟩ } } :
        Lowering α PUnit) (fun _ b => P b ∧ o < b.model.columns.size) :=
    Sustains.modify fun b hb hp =>
      have hext := Builder.extends_model (b := b)
        (m := { b.model with objective := some ⟨sense, o⟩ }) le_rfl
      ⟨hext, hb.setObjective hp.2, hPo _ _ hext hp⟩
  exact hobj.bind fun _ => .pure fun _ hb => ⟨hb.1, .column hb.2⟩

/-! ### Lowering a node and the walk -/

/-- Lowering a node whose operands are encoded gives an encoding on existing columns. -/
theorem encodeKind_sustains (hP : Stable P) (id : Nat) {k : Kind α}
    (h : ∀ b, P b → ∀ c ∈ k.children, b.Encoded c) (top : Bool) :
    Sustains P (encodeKind id k top) (fun e b => P b ∧ e.OnColumns b.model.columns.size) := by
  unfold encodeKind
  split
  · exact (addColumn_sustains hP _ _ _ _).map fun _ _ hb => ⟨hb.1, .column hb.2⟩
  · exact (encodeIntVar_sustains hP _ _ _ _).map fun _ _ hb => ⟨hb.1, .column hb.2⟩
  · exact .pure fun _ hb => ⟨hb, Encoding.onColumns_affine _⟩
  · exact encodeSum_sustains hP _ _
  · exact (difference_sustains _ _ _).bind fun expr =>
      (encodeRel_sustains (hP.and (Stable.onColumns expr)) (fun _ hb => hb.2) top).mono
        fun _ _ hb => ⟨hb.1.1, hb.2⟩
  · exact encodePrecedence_sustains hP _ _ _ _ _
  · exact encodeNoOverlap_sustains hP _ _ _ _ _
  · exact encodeNot_sustains hP (fun b hb => h b hb _ (by simp [Kind.children])) _
  · exact encodeAnd_sustains hP
      (fun b hb => ⟨h b hb _ (by simp [Kind.children]), h b hb _ (by simp [Kind.children])⟩) _
  · exact encodeOr_sustains hP
      (fun b hb => ⟨h b hb _ (by simp [Kind.children]), h b hb _ (by simp [Kind.children])⟩) _
  · split
    · exact .throw
    · exact (encodeFlow_sustains hP _ _ _ _ _ _).bind fun _ =>
        .pure fun _ hb => ⟨hb, Encoding.onColumns_posted _⟩
  · exact encodeObjective_sustains hP _ _ _ _

/-- Lowering a node whose operands are encoded leaves it encoded. -/
theorem encode_sustains (hP : Stable P) {id : Nat} (h : ∀ b, P b → b.OperandsEncoded id)
    (top : Bool) : Sustains P (encode id top) (fun _ b => P b ∧ b.Encoded id) := by
  unfold encode
  refine (nodeAt_sustains id).bind fun n => ?_
  -- the node keeps its kind while it is lowered, so its operands stay those of `n`
  have hPn : Stable fun b => (P b ∧ b.OperandsEncoded id) ∧
      ∃ m : Node α, b.nodes[id]? = some m ∧ m.kind = n.kind :=
    (hP.and (Stable.operandsEncoded id)).and (Stable.kind id n.kind)
  have hops : ∀ b, ((P b ∧ b.OperandsEncoded id) ∧
      ∃ m : Node α, b.nodes[id]? = some m ∧ m.kind = n.kind) → ∀ c ∈ n.kind.children, b.Encoded c := by
    rintro b ⟨⟨-, m, hm, hall⟩, m', hm', hk⟩ c hc
    rw [hm, Option.some.injEq] at hm'
    rw [← hk, ← hm'] at hc
    exact hall c hc
  refine ((encodeKind_sustains hPn id hops top).weaken
    fun b hb => ⟨⟨hb.1, h b hb.1⟩, n, hb.2, rfl⟩).bind fun e => ?_
  have hPe : Stable fun b => (P b ∧ b.OperandsEncoded id) ∧ e.OnColumns b.model.columns.size :=
    (hP.and (Stable.operandsEncoded id)).and (Stable.columns_lt _)
  exact ((setEncoding_sustains hPe fun _ hb => ⟨hb.2, hb.1.2⟩).weaken
    fun _ hb => ⟨hb.1.1, hb.2⟩).mono fun _ _ hb => ⟨hb.1.1.1, hb.2⟩

theorem forceOn_sustains (hP : Stable P) (v : Nat) : Sustains P (forceOn v) (fun _ => P) :=
  modifyColumn_sustains hP v _

/-- A successful walk from a node leaves it encoded. By strong induction on the node: its
operands precede it, are walked first and stay encoded. -/
theorem visit_sustains {P : Builder α → Prop} (hP : Stable P) (id : Nat) (top : Bool) :
    Sustains P (visit id top) (fun _ b => P b ∧ b.Encoded id) := by
  induction id using Nat.strongRecOn generalizing P top with
  | ind id ih =>
  rw [visit]
  refine (nodeAt_sustains id).bind fun n => ?_
  have hencoded : ∀ e, n.encoding = some e → ∀ b, P b ∧ b.nodes[id]? = some n →
      P b ∧ b.Encoded id := fun e he b hb => ⟨hb.1, n, hb.2, by simp [he]⟩
  split
  · -- encoded as a column: at top level a relation has its indicator forced on
    next v hv =>
    split
    · exact (forceOn_sustains (hP.and (Stable.encoded id)) v).weaken (hencoded _ hv)
    · exact .pure (hencoded _ hv)
  · next e he => exact .pure (hencoded _ he)
  · -- not encoded: the operands are walked nested, then the node is lowered
    have hPk : Stable fun b => P b ∧ ∃ m : Node α, b.nodes[id]? = some m ∧ m.kind = n.kind :=
      hP.and (Stable.kind id n.kind)
    refine ((Sustains.forM_all (fun c => Stable.encoded c) fun c _ => ?_).weaken
      fun b hb => (⟨hb.1, n, hb.2, rfl⟩ :
        P b ∧ ∃ m : Node α, b.nodes[id]? = some m ∧ m.kind = n.kind)).bind fun _ => ?_
    · split
      · next hc => exact ih c hc hPk false
      · exact .throw
    have hPc : Stable fun b => (P b ∧ ∃ m : Node α, b.nodes[id]? = some m ∧ m.kind = n.kind) ∧
        ∀ c ∈ n.kind.children, b.Encoded c :=
      hPk.and (Stable.forall_mem (fun c => Stable.encoded c) _)
    refine (encode_sustains hPc (fun _ hb => ?_) top).mono fun _ _ hb => ⟨hb.1.1.1, hb.2⟩
    obtain ⟨⟨-, m, hm, hk⟩, hall⟩ := hb
    exact ⟨m, hm, hk ▸ hall⟩

end Lowering

end MipLowering
