import MipLowering.Proofs.Lowering.SoundEncodings

/-!
# Reachable builders are well formed

Every builder that requests reach from a new one is sound (`Builder.Sound`), whether the
requests succeed or fail: operands precede their nodes, nodes encoded as columns name columns of
the model, encoded nodes have encoded operands, rows, the objective and the decisions name
columns (the decisions without repeats), and every cached reading is an encoded `x ≠ 0` node.
Between requests the list of nodes encoded by the add in progress is empty.

A new node is validated against the arena before it is pushed, so its operands precede it. An
add that succeeds walks the arena by `Lowering.visit`, which keeps the builder sound; one that
fails is rolled back to the builder it started from. Pinning a sum changes only its bounds, and
initialising records as decisions the columns of encoded nodes, without repeats. A column is
identified by its position in the model, so the identity of a column and its position agree by
construction.

## Main results

* `MipLowering.Builder.Sound.exec` — every request keeps a builder between requests sound.
* `MipLowering.Builder.reachable_builder_sound` — reachable builders are sound and idle.
-/

namespace MipLowering

/-- A computation in `Except` that succeeds runs each step to success. -/
theorem except_bind_ok {ε β γ : Type} {x : Except ε β} {f : β → Except ε γ} {c : γ}
    (h : (x >>= f) = .ok c) : ∃ a, x = .ok a ∧ f a = .ok c := by
  cases x with
  | error e => cases h
  | ok a => exact ⟨a, rfl, h⟩

/-- A fold in `Except` that succeeds runs its step to success on every element. -/
theorem foldlM_except_ok_mem {ε σ β : Type} {f : σ → β → Except ε σ} :
    ∀ (l : List β) (init r : σ), l.foldlM f init = .ok r →
      ∀ y ∈ l, ∃ acc acc', f acc y = .ok acc'
  | [], _, _, _, _, hy => absurd hy List.not_mem_nil
  | x :: xs, init, r, h, y, hy => by
    rw [List.foldlM_cons] at h
    obtain ⟨acc, hx, h⟩ := except_bind_ok h
    rcases List.mem_cons.mp hy with rfl | hy
    · exact ⟨init, acc, hx⟩
    · exact foldlM_except_ok_mem xs acc r h y hy

namespace Builder

variable {α : Type} {b b' : Builder α}

/-! ### Validation of new nodes -/

section Validation

theorem node_ok {id : Nat} {n : Node α} (h : b.node id = .ok n) : b.nodes[id]? = some n := by
  unfold node at h
  split at h
  · next m hm =>
    cases h
    exact hm
  · cases h

theorem lt_of_node_ok {id : Nat} {n : Node α} (h : b.node id = .ok n) : id < b.nodes.size :=
  (Array.getElem?_eq_some_iff.mp (node_ok h)).1

theorem checkNodes_ok {ids : List Nat} {u : Unit} (h : b.checkNodes ids = .ok u) :
    ∀ i ∈ ids, i < b.nodes.size := by
  induction ids with
  | nil => exact fun _ hi => absurd hi List.not_mem_nil
  | cons i is ih =>
    unfold checkNodes at h ih
    obtain ⟨_, hi, h⟩ := except_bind_ok h
    obtain ⟨_, hn, -⟩ := except_bind_ok hi
    intro j hj
    rcases List.mem_cons.mp hj with rfl | hj
    · exact lt_of_node_ok hn
    · exact ih h j hj

variable [Scalar α]

theorem sumBounds_ok {offset : α} {terms : List (Nat × Int)} {r : α × α × Bool}
    (h : b.sumBounds offset terms = .ok r) : ∀ t ∈ terms, t.1 < b.nodes.size := by
  intro t ht
  obtain ⟨_, _, hstep⟩ := foldlM_except_ok_mem terms _ r h t ht
  obtain ⟨_, hn, -⟩ := except_bind_ok hstep
  exact lt_of_node_ok hn

/-- A kind that passes validation has its operands in the arena, and is stored with the same
operands. -/
theorem derive_children {k : Kind α} {d : Kind α × α × α × Bool} (h : b.derive k = .ok d) :
    ∀ c ∈ d.1.children, c < b.nodes.size := by
  cases k with
  | floatVar lower upper =>
    obtain ⟨_, -, h⟩ := except_bind_ok h
    cases h
    simp [Kind.children]
  | intVar lower upper values =>
    -- whatever the value list, the stored kind is an integer variable, without operands
    simp only [derive] at h
    split at h
    · split at h
      · obtain ⟨_, -, h⟩ := except_bind_ok h
        obtain ⟨_, -, h⟩ := except_bind_ok h
        cases h
        simp [Kind.children]
      · obtain ⟨_, h, -⟩ := except_bind_ok h
        cases h
    · obtain ⟨_, -, h⟩ := except_bind_ok h
      obtain ⟨_, -, h⟩ := except_bind_ok h
      cases h
      simp [Kind.children]
  | view shape base scale offset =>
    simp only [derive] at h
    split at h
    · obtain ⟨_, h, -⟩ := except_bind_ok h
      cases h
    · obtain ⟨_, hn, h⟩ := except_bind_ok h
      cases h
      simpa [Kind.children] using lt_of_node_ok hn
  | sum vars weights offset =>
    obtain ⟨_, hlen, h⟩ := except_bind_ok h
    obtain ⟨_, hsum, h⟩ := except_bind_ok h
    cases h
    -- every operand is the first component of a term of the sum
    have hlen : vars.length = weights.length := by
      unfold checkLength at hlen
      split at hlen
      · exact (beq_iff_eq.mp ‹_›).symm
      · cases hlen
    intro c hc
    rw [← List.map_fst_zip hlen.le] at hc
    obtain ⟨t, ht, rfl⟩ := List.mem_map.mp hc
    exact sumBounds_ok hsum t ht
  | flow kind vars values lb ub =>
    obtain ⟨_, hn, h⟩ := except_bind_ok h
    -- both kinds of flow are stored as given
    have hkind : d.1 = .flow kind vars values lb ub := by
      split at h
      · obtain ⟨_, -, h⟩ := except_bind_ok h
        cases h
        rfl
      · obtain ⟨_, -, h⟩ := except_bind_ok h
        obtain ⟨_, -, h⟩ := except_bind_ok h
        obtain ⟨_, -, h⟩ := except_bind_ok h
        cases h
        rfl
    rw [hkind]
    exact checkNodes_ok hn
  | rel r lhs rhs =>
    obtain ⟨_, hchk, h⟩ := except_bind_ok h
    cases h
    obtain ⟨_, hl, hchk⟩ := except_bind_ok hchk
    cases rhs with
    | node c =>
      obtain ⟨_, hc, -⟩ := except_bind_ok hchk
      simp [Kind.children, lt_of_node_ok hl, lt_of_node_ok hc]
    | const k => simp [Kind.children, lt_of_node_ok hl]
  | not a =>
    obtain ⟨_, hchk, h⟩ := except_bind_ok h
    cases h
    obtain ⟨_, ha, -⟩ := except_bind_ok hchk
    simp [Kind.children, lt_of_node_ok ha]
  | and x y =>
    obtain ⟨_, hchk, h⟩ := except_bind_ok h
    cases h
    exact checkNodes_ok hchk
  | or x y =>
    obtain ⟨_, hchk, h⟩ := except_bind_ok h
    cases h
    exact checkNodes_ok hchk
  | precedence first second coefs =>
    obtain ⟨_, hchk, h⟩ := except_bind_ok h
    cases h
    obtain ⟨_, hn, -⟩ := except_bind_ok hchk
    exact checkNodes_ok hn
  | noOverlap first second coefs =>
    obtain ⟨_, hchk, h⟩ := except_bind_ok h
    cases h
    obtain ⟨_, hn, -⟩ := except_bind_ok hchk
    exact checkNodes_ok hn
  | objective sense expr =>
    obtain ⟨_, hn, h⟩ := except_bind_ok h
    cases h
    simpa [Kind.children] using lt_of_node_ok hn

end Validation

/-! ### Updates outside a walk -/

section Updates

variable [Scalar α]

/-- A builder with the arena, the model and the readings of a sound builder is sound. -/
theorem Sound.congr (h : b.Sound) (hn : b'.nodes = b.nodes) (hm : b'.model = b.model)
    (hr : b'.readings = b.readings) : b'.Sound := by
  obtain ⟨c, nodes, model, readings, enc, ia, va, init⟩ := b
  obtain ⟨c', nodes', model', readings', enc', ia', va', init'⟩ := b'
  dsimp only at hn hm hr
  subst hn hm hr
  exact ⟨h.children, h.columns, h.operands, h.rows, h.objective, h.decisions, h.readings⟩

/-- A builder with an empty arena and an empty model is sound. -/
theorem sound_empty (c : LoweringConfig α) : ({ config := c } : Builder α).Sound where
  children _ _ h := by simp at h
  columns _ _ _ h := by simp at h
  operands _ _ h := by simp at h
  rows _ h := by simp at h
  objective _ h := by simp at h
  decisions := by simp
  readings _ h := by simp at h

/-- Replacing a node by one of the same kind and encoding, as pinning a sum does. -/
theorem Sound.setNode (h : b.Sound) {id : Nat} {n m : Node α} (hn : b.nodes[id]? = some n)
    (hk : m.kind = n.kind) (he : m.encoding = n.encoding) :
    { b with nodes := b.nodes.setIfInBounds id m }.Sound := by
  have hlt : id < b.nodes.size := (Array.getElem?_eq_some_iff.mp hn).1
  -- a node of the new arena is an old node, or `m` in place of `n`
  have hget : ∀ (i : Nat) (m' : Node α), (b.nodes.setIfInBounds id m)[i]? = some m' →
      ∃ n' : Node α, b.nodes[i]? = some n' ∧ m'.kind = n'.kind ∧ m'.encoding = n'.encoding := by
    intro i m' hm'
    by_cases hi : id = i
    · subst hi
      rw [Array.getElem?_setIfInBounds_self_of_lt hlt, Option.some.injEq] at hm'
      subst hm'
      exact ⟨n, hn, hk, he⟩
    · rw [Array.getElem?_setIfInBounds_ne hi] at hm'
      exact ⟨m', hm', rfl, rfl⟩
  have hext : b.Extends { b with nodes := b.nodes.setIfInBounds id m } := by
    refine ⟨fun i n' hn' => ?_, le_rfl⟩
    by_cases hi : id = i
    · subst hi
      rw [hn, Option.some.injEq] at hn'
      subst hn'
      exact ⟨m, Array.getElem?_setIfInBounds_self_of_lt hlt, hk, fun hs => he ▸ hs⟩
    · exact ⟨n', by rw [Array.getElem?_setIfInBounds_ne hi]; exact hn', rfl, fun hs => hs⟩
  refine ⟨fun i m' hm' c hc => ?_, fun i m' v hm' hv => ?_, fun i m' hm' hs c hc => ?_, h.rows,
    h.objective, h.decisions, h.readings_of_extends hext rfl⟩
  · obtain ⟨n', hn', hk', -⟩ := hget i m' hm'
    exact h.children i n' hn' c (hk' ▸ hc)
  · obtain ⟨n', hn', -, he'⟩ := hget i m' hm'
    exact h.columns i n' v hn' (he' ▸ hv)
  · obtain ⟨n', hn', hk', he'⟩ := hget i m' hm'
    exact hext.encoded (h.operands i n' hn' (he' ▸ hs) c (hk' ▸ hc))

/-- Recording decision columns without repeats, each a column of the model. -/
theorem Sound.setDecisions (h : b.Sound) {ds : List Nat} (hd : ds.Nodup)
    (hlt : ∀ d ∈ ds, d < b.model.columns.size) :
    { b with model := { b.model with decisions := ds } }.Sound :=
  ⟨h.children, h.columns, h.operands, h.rows, h.objective, ⟨hd, hlt⟩, h.readings⟩

/-- The decision column a node stands for is a column of the model. -/
theorem Sound.decisionColumn_lt (h : b.Sound) (id : Nat) :
    ∀ {v : Nat}, b.decisionColumn? id = .ok (some v) → v < b.model.columns.size := by
  induction id using Nat.strongRecOn with
  | ind id ih =>
  intro v hv
  rw [decisionColumn?] at hv
  obtain ⟨n, hn, hv⟩ := except_bind_ok hv
  split at hv
  · cases hv
  · -- a view stands for its base
    split at hv
    · exact ih _ ‹_› hv
    · cases hv
  · cases hv
    exact h.columns id n _ (node_ok hn) ‹_›
  · cases hv

theorem Sound.initialiseWith (h : b.Sound) {ds : List Nat} (hok : b.initialiseWith ds = .ok b') :
    b'.Sound := by
  obtain ⟨cols, hcols, hok⟩ := except_bind_ok hok
  obtain ⟨b₁, hinit, hok⟩ := except_bind_ok hok
  cases hok
  have hb₁ : b₁ = { b with initialised := true } := by
    unfold initialise at hinit
    split at hinit
    · cases hinit
    · cases hinit
      rfl
  subst hb₁
  -- the decision columns are gathered without repeats, each a column of an encoded node
  have hdec : cols.Nodup ∧ ∀ d ∈ cols, d < b.model.columns.size := by
    refine foldlM_except_of_step (fun acc : List Nat => acc.Nodup ∧
      ∀ d ∈ acc, d < b.model.columns.size) ds [] ⟨List.nodup_nil, fun _ h => absurd h List.not_mem_nil⟩
      (fun acc x _ hacc acc' hstep => ?_) cols hcols
    obtain ⟨o, ho, hstep⟩ := except_bind_ok hstep
    split at hstep
    · next v =>
      cases hstep
      have hv := h.decisionColumn_lt x ho
      split
      · exact hacc
      · next hnew =>
        refine ⟨List.nodup_append.mpr ⟨hacc.1, List.nodup_cons.mpr ⟨List.not_mem_nil, List.nodup_nil⟩, ?_⟩, fun d hd => ?_⟩
        · intro a ha c hc
          rw [List.mem_singleton.mp hc]
          rintro rfl
          exact hnew (List.contains_iff_mem.mpr ha)
        · rcases List.mem_append.mp hd with hd | hd
          · exact hacc.2 d hd
          · rw [List.mem_singleton.mp hd]
            exact hv
    · cases hstep
      exact hacc
  have h₁ : ({ b with initialised := true } : Builder α).Sound := h.congr rfl rfl rfl
  exact h₁.setDecisions hdec.1 hdec.2

/-- A new node is validated before it is pushed, so its operands precede it. -/
theorem Sound.addExpr (h : b.Sound) {k : Kind α} {r : Nat × Builder α} (hok : b.addExpr k = .ok r) :
    r.2.Sound := by
  obtain ⟨k', lo, hi, c, hd, rfl⟩ := addExpr_ok hok
  exact h.pushNode (derive_children hd) rfl

/-- An add keeps a sound builder sound: a walk that succeeds keeps it sound, and one that fails
is rolled back to the builder it started from. -/
theorem Sound.addRun (h : b.Sound) (hi : b.Idle) (id : Nat) : (b.addRun id).2.Sound := by
  unfold Builder.addRun
  split
  · exact h
  next hinit =>
  split
  · exact h
  next n hnode =>
  split
  · next b' hrun =>
    exact ((Lowering.visit_sustains (fun _ _ _ _ => trivial) id true b () b' h trivial
      hrun).2.1).congr rfl rfl rfl
  · next e b' hrun =>
    have hfail : (b.addRun id).1 = .error e := by simp [Builder.addRun, hinit, hnode, hrun]
    have hback := addRun_error hi hfail
    simp only [Builder.addRun, hinit, hnode, hrun, Bool.false_eq_true, if_false] at hback
    rw [hback]
    exact h

theorem Sound.settle (h : b.Sound) {x : Except (ModelError α) (Builder α)}
    (hx : ∀ b', x = .ok b' → b'.Sound) : (b.settle x).2.Sound := by
  cases x with
  | ok b' => exact hx b' rfl
  | error e => exact h

/-- Every request keeps a sound builder between requests sound. -/
theorem Sound.exec (h : b.Sound) (hi : b.Idle) (r : Request α) : (b.exec r).2.Sound := by
  cases r with
  | add id => exact h.addRun hi id
  | addExpr k =>
    refine h.settle fun b' hb' => ?_
    obtain ⟨_, hok⟩ := map_snd_eq_ok hb'
    exact h.addExpr hok
  | addIntArray xs =>
    refine h.settle fun b' hb' => ?_
    obtain ⟨_, hok⟩ := map_snd_eq_ok hb'
    rw [addIntArray_ok hok]
    exact h.congr rfl rfl rfl
  | addVarArray ids =>
    refine h.settle fun b' hb' => ?_
    obtain ⟨_, hok⟩ := map_snd_eq_ok hb'
    rw [addVarArray_ok hok]
    exact h.congr rfl rfl rfl
  | setRhs id k =>
    refine h.settle fun b' hok => ?_
    obtain ⟨n, hn, -, rfl⟩ := setRhs_ok hok
    exact h.setNode hn rfl rfl
  | initialise =>
    refine h.settle fun b' hok => ?_
    rw [initialise_ok hok]
    exact h.congr rfl rfl rfl
  | initialiseWith ds => exact h.settle fun b' hok => h.initialiseWith hok

end Updates

/-- Every reachable builder is sound. -/
theorem Reachable.sound [Scalar α] (hb : b.Reachable) : b.Sound := by
  induction hb with
  | new => exact sound_empty _
  | withConfig h =>
    simp only [Builder.withConfig, bind, Except.bind, pure, Except.pure] at h
    split at h
    · cases h
    · cases h
      exact sound_empty _
  | exec r hr ih => exact ih.exec hr.idle r

/-- Reachable builders are well formed, after any sequence of requests, successful or failing:
every operand of a node precedes it, every node encoded as a column names a column of the
model, every encoded node has encoded operands, every row term, the objective and every
decision name a column, the decisions have no repeats, every cached reading `x ↦ r` names an
encoded node `r` of kind `x ≠ 0`, and no add is in progress. -/
theorem reachable_builder_sound [Scalar α] (hb : b.Reachable) : b.Sound ∧ b.encoded = [] :=
  ⟨hb.sound, hb.idle.encoded⟩

/-- The builder after adding an integer variable to a new model is well formed. -/
theorem intVar_added_builder_sound :
    (((Builder.new : Builder Float).exec (.addExpr (.intVar 0 3 none))).2.exec (.add 0)).2.Reachable ∧
      ((((Builder.new : Builder Float).exec (.addExpr (.intVar 0 3 none))).2.exec (.add 0)).2.Sound ∧
        (((Builder.new : Builder Float).exec (.addExpr (.intVar 0 3 none))).2.exec
          (.add 0)).2.encoded = []) :=
  ⟨.exec _ (.exec _ .new), reachable_builder_sound (.exec _ (.exec _ .new))⟩

end Builder

end MipLowering
