import MipLowering.Proofs.Lowering.NamedColumns

/-!
# Column names are unique

Every builder that requests reach, whether they succeed or fail, names its columns without
repeats (`Builder.reachable_names_nodup`), although an add that fails is rolled back and the
ids of the nodes it pushed are handed out again.

The invariant behind it (`Builder.NamesOwned`): the names of the columns render distinct
`ColumnName`s, each owned by an encoded node, or, for the column of the objective, the
objective is set. A walk encodes a node once, after its operands, and the operands of a node
precede it, so the walks of the operands leave the node unencoded (`Builder.KeepsFrom`).
Lowering it appends names owned by the node, by readings pushed beyond the arena, or the name
of an objective that the model did not have, so no name repeats. An add that fails leaves the
builder as it was, and every other request keeps the names and the encodings.

## Main definitions

* `MipLowering.Builder.NamesOwned` — the names are distinct and owned.
* `MipLowering.Builder.KeepsFrom` — a step of a walk keeps the invariant and the nodes from an
  id on.

## Main results

* `MipLowering.Lowering.visit_keepsFrom` — a walk from node `c` keeps the nodes after `c`.
* `MipLowering.Builder.NamesOwned.exec` — every request keeps the invariant.
* `MipLowering.Builder.reachable_names_nodup`.
-/

namespace MipLowering

namespace Builder

variable {α : Type} {b b' b'' : Builder α}

/-! ### Owned names -/

/-- The names of the columns of `b` render distinct names, each owned by an encoded node, or
the name of an objective when the model has one. -/
def NamesOwned (b : Builder α) : Prop :=
  ∃ Ns : List ColumnName, b.model.names = Ns.map ColumnName.render ∧ Ns.Nodup ∧
    ∀ N ∈ Ns, (∃ i, N.owner = some i ∧ b.Encoded i) ∨
      (N.owner = none ∧ b.model.objective.isSome)

theorem NamesOwned.nodup (h : b.NamesOwned) : b.model.names.Nodup := by
  obtain ⟨Ns, hN, hnd, -⟩ := h
  rw [hN]
  exact hnd.map ColumnName.render_injective

theorem namesOwned_of_names_nil (h : b.model.names = []) : b.NamesOwned :=
  ⟨[], h, List.nodup_nil, fun _ h => absurd h List.not_mem_nil⟩

theorem valuesNodup_of_nodes_empty (h : b.nodes = #[]) : b.ValuesNodup := by
  intro i n vs hn
  rw [h] at hn
  cases hn

/-- A change that keeps the names, keeps an objective and keeps every encoded node encoded. -/
theorem NamesOwned.of_encoded (h : b.NamesOwned) (hnames : b'.model.names = b.model.names)
    (hobj : b.model.objective.isSome → b'.model.objective.isSome)
    (henc : ∀ i, b.Encoded i → b'.Encoded i) : b'.NamesOwned := by
  obtain ⟨Ns, hN, hnd, hown⟩ := h
  refine ⟨Ns, hnames.trans hN, hnd, fun N hN' => ?_⟩
  rcases hown N hN' with ⟨i, hi, he⟩ | ⟨hi, ho⟩
  · exact .inl ⟨i, hi, henc i he⟩
  · exact .inr ⟨hi, hobj ho⟩

/-- A change of the arena alone that keeps every encoded node encoded. -/
theorem NamesOwned.of_nodes (h : b.NamesOwned) (hm : b'.model = b.model)
    (henc : ∀ i, b.Encoded i → b'.Encoded i) : b'.NamesOwned :=
  h.of_encoded (by rw [hm]) (by rw [hm]; exact id) henc

theorem NamesOwned.withColumnOn [Scalar α] (h : b.NamesOwned) (v : Nat) :
    (b.withColumnOn v).NamesOwned :=
  h.of_encoded (FlatModel.names_modifyColumn fun _ => rfl) id fun _ hi => hi

theorem NamesOwned.revisit [Scalar α] (h : b.NamesOwned) (top : Bool) (k : Kind α)
    (e : Encoding) : (b.revisit top k e).NamesOwned := by
  cases e with
  | column v =>
    simp only [Builder.revisit]
    split
    · exact h.withColumnOn v
    · exact h
  | _ => exact h

/-! ### Steps of a walk -/

/-- A step of a walk from `b` to `b'`: the names stay owned, the value lists without repeats,
the arena only grows, and the nodes from `c` on that `b` has are kept. -/
structure KeepsFrom (c : Nat) (b b' : Builder α) : Prop where
  names : b'.NamesOwned
  values : b'.ValuesNodup
  size : b.nodes.size ≤ b'.nodes.size
  keeps : ∀ i, c ≤ i → i < b.nodes.size → b'.nodes[i]? = b.nodes[i]?

theorem KeepsFrom.trans {c : Nat} (h₁ : KeepsFrom c b b') (h₂ : KeepsFrom c b' b'') :
    KeepsFrom c b b'' :=
  ⟨h₂.names, h₂.values, h₁.size.trans h₂.size, fun i hi hlt => by
    rw [h₂.keeps i hi (Nat.lt_of_lt_of_le hlt h₁.size), h₁.keeps i hi hlt]⟩

theorem KeepsFrom.mono {c d : Nat} (h : KeepsFrom c b b') (hcd : c ≤ d) : KeepsFrom d b b' :=
  ⟨h.names, h.values, h.size, fun i hi hlt => h.keeps i (hcd.trans hi) hlt⟩

theorem KeepsFrom.refl (c : Nat) (hN : b.NamesOwned) (hv : b.ValuesNodup) : KeepsFrom c b b :=
  ⟨hN, hv, le_rfl, fun _ _ _ => rfl⟩

theorem NamesOwned.settle {x : Except (ModelError α) (Builder α)} (h : b.NamesOwned)
    (hv : b.ValuesNodup) (hx : ∀ b', x = .ok b' → b'.NamesOwned ∧ b'.ValuesNodup) :
    (b.settle x).2.NamesOwned ∧ (b.settle x).2.ValuesNodup := by
  cases x with
  | ok b' => exact hx b' rfl
  | error e => exact ⟨h, hv⟩

/-! ### Changes of the arena -/

/-- A change of one node that keeps its kind and its encoding. -/
theorem NamesOwned.setNode (h : b.NamesOwned) (hv : b.ValuesNodup) {id : Nat} {n m : Node α}
    (hn : b.nodes[id]? = some n) (hk : m.kind = n.kind) (he : m.encoding = n.encoding) :
    ({ b with nodes := b.nodes.setIfInBounds id m } : Builder α).NamesOwned ∧
      ({ b with nodes := b.nodes.setIfInBounds id m } : Builder α).ValuesNodup := by
  -- a node of the new arena is an old node, or `m` in place of `n`
  have hget : ∀ (i : Nat) (m' : Node α), (b.nodes.setIfInBounds id m)[i]? = some m' →
      ∃ n' : Node α, b.nodes[i]? = some n' ∧ m'.kind = n'.kind ∧ m'.encoding = n'.encoding := by
    intro i m' hm'
    rw [Array.getElem?_setIfInBounds] at hm'
    split at hm'
    · next hi =>
      subst hi
      split at hm'
      · cases hm'
        exact ⟨n, hn, hk, he⟩
      · cases hm'
    · exact ⟨m', hm', rfl, rfl⟩
  have hlt : id < b.nodes.size := (Array.getElem?_eq_some_iff.mp hn).1
  refine ⟨h.of_nodes rfl fun i ⟨n', hn', hs⟩ => ?_, fun i m' vs hm' hvs => ?_⟩
  · by_cases hi : i = id
    · subst hi
      rw [hn, Option.some.injEq] at hn'
      subst hn'
      refine ⟨m, ?_, he ▸ hs⟩
      rw [Array.getElem?_setIfInBounds, if_pos rfl, if_pos hlt]
    · exact ⟨n', by rw [Array.getElem?_setIfInBounds, if_neg (Ne.symm hi), hn'], hs⟩
  · obtain ⟨n', hn', hk', -⟩ := hget i m' hm'
    rw [hk'] at hvs
    exact hv i n' vs hn' hvs

/-- A node pushed unencoded, with a value list without repeats. -/
theorem NamesOwned.pushNode (h : b.NamesOwned) (hv : b.ValuesNodup) {n : Node α}
    (hk : ∀ vs, n.kind.values? = some vs → vs.Nodup) :
    (b.pushNode n).2.NamesOwned ∧ (b.pushNode n).2.ValuesNodup := by
  refine ⟨h.of_nodes rfl fun i ⟨m, hm, hs⟩ => ⟨m, ?_, hs⟩, fun i m vs hm hvs => ?_⟩
  · show (b.nodes.push n)[i]? = some m
    rw [Array.getElem?_push, if_neg (Nat.ne_of_lt (Array.getElem?_eq_some_iff.mp hm).1), hm]
  · change (b.nodes.push n)[i]? = some m at hm
    rw [Array.getElem?_push] at hm
    split at hm
    · cases hm
      exact hk vs hvs
    · exact hv i m vs hm hvs

/-- Pushing readings, which list no values, keeps the value lists without repeats. -/
theorem AddsReadings.valuesNodup [Scalar α] (hr : b.AddsReadings b') (hv : b.ValuesNodup) :
    b'.ValuesNodup := by
  intro i m vs hm hvs
  by_cases hib : i < b.nodes.size
  · have hb := Array.getElem?_eq_getElem hib
    rw [hr.old i _ hb, Option.some.injEq] at hm
    subst hm
    exact hv i _ vs hb hvs
  · obtain ⟨-, x, hx⟩ := hr.new i m (Nat.le_of_not_lt hib) hm
    rw [hx] at hvs
    cases hvs

end Builder

namespace Lowering

open Builder

variable {α : Type} {b b' : Builder α}

theorem setEncoding_run (c : Nat) (e : Encoding) (b : Builder α) :
    (setEncoding c e).run b = .ok ()
      { b with nodes := b.nodes.modify c (fun n => { n with encoding := some e }),
               encoded := b.encoded ++ [c] } := rfl

/-- The operands of a node walked in turn, each keeping the nodes from `c` on. -/
theorem forM_keepsFrom {f : Nat → Lowering α PUnit} {c : Nat} : ∀ (cs : List Nat)
    {b b' : Builder α}, (∀ c' ∈ cs, ∀ b₁ b₂ : Builder α, (f c').run b₁ = .ok () b₂ →
      b₁.NamesOwned → b₁.ValuesNodup → KeepsFrom c b₁ b₂) →
    (cs.forM f).run b = .ok () b' → b.NamesOwned → b.ValuesNodup → KeepsFrom c b b'
  | [], b, b', _, h, hN, hv => by
    cases h
    exact .refl c hN hv
  | c' :: cs, b, b', hf, h, hN, hv => by
    have hstep : (c' :: cs).forM f = (f c' >>= fun _ => cs.forM f) := rfl
    rw [hstep] at h
    obtain ⟨_, b₁, h₁, h⟩ := run_bind_ok h
    have hk₁ := hf c' List.mem_cons_self b b₁ h₁ hN hv
    exact hk₁.trans (forM_keepsFrom cs (fun c'' hc'' => hf c'' (List.mem_cons_of_mem _ hc''))
      h hk₁.names hk₁.values)

variable [Scalar α]

/-- Lowering node `c`, which `b` has not encoded, keeps the names owned once `c` is marked
encoded: the names it appends are owned by readings beyond the arena, by `c`, or by the objective
the model lacked, and none of these owns an old name. -/
theorem LowersNode.namesOwned {c : Nat} {b₂ : Builder α} (hl : LowersNode c b b₂)
    (hN : b.NamesOwned) (hlt : c < b.nodes.size) (hunc : ¬b.Encoded c) (hm : b'.model = b₂.model)
    (henc : ∀ i, b₂.Encoded i → b'.Encoded i) (hc : b'.Encoded c) : b'.NamesOwned := by
  obtain ⟨hr, hobj, F, S, ⟨hFnd, hF⟩, ⟨hSnd, hS⟩, hnames⟩ := hl
  obtain ⟨Ns, hN, hnd, hown⟩ := hN
  -- the owner of an old name is an encoded node of `b`, so neither `c` nor beyond the arena
  have hold : ∀ N ∈ Ns, ∀ j, N.owner = some j → j < b.nodes.size ∧ j ≠ c := by
    intro N hN' j hj
    rcases hown N hN' with ⟨i, hi, m, hm, hs⟩ | ⟨hi, -⟩
    · rw [hj, Option.some.injEq] at hi
      subst hi
      exact ⟨(Array.getElem?_eq_some_iff.mp hm).1, fun hjc => hunc (hjc ▸ ⟨m, hm, hs⟩)⟩
    · rw [hj] at hi
      cases hi
  have hnames' : b'.model.names = (Ns ++ (F ++ S)).map ColumnName.render := by
    rw [hm, hnames, hN, List.map_append, List.map_append, List.map_append]
  refine ⟨Ns ++ (F ++ S), hnames',
    List.nodup_append.mpr ⟨hnd, List.nodup_append.mpr ⟨hFnd, hSnd, ?_⟩, ?_⟩, ?_⟩
  · -- a reading lies beyond the arena, the node itself within it
    intro N hN' M hM hNM
    subst hNM
    obtain ⟨j, hj, hle, -⟩ := hF N hN'
    rcases hS N hM with hc | ⟨hc, -⟩ <;> rw [hj] at hc
    · cases hc
      omega
    · cases hc
  · intro N hN' M hM hNM
    subst hNM
    rcases List.mem_append.mp hM with hM | hM
    · obtain ⟨j, hj, hle, -⟩ := hF N hM
      have := (hold N hN' j hj).1
      omega
    · rcases hS N hM with hc | ⟨hc, hnone, -⟩
      · exact (hold N hN' c hc).2 rfl
      · rcases hown N hN' with ⟨i, hi, -⟩ | ⟨-, ho⟩
        · rw [hc] at hi
          cases hi
        · rw [hnone] at ho
          cases ho
  · intro N hN'
    rcases List.mem_append.mp hN' with hN' | hN'
    · rcases hown N hN' with ⟨i, hi, hs⟩ | ⟨hi, ho⟩
      · exact .inl ⟨i, hi, henc i (hr.encoded hs)⟩
      · refine .inr ⟨hi, ?_⟩
        rcases hobj with ho' | ⟨hnone, -⟩
        · rw [hm, ho']
          exact ho
        · rw [hnone] at ho
          cases ho
    rcases List.mem_append.mp hN' with hN' | hN'
    · obtain ⟨j, hj, -, hs⟩ := hF N hN'
      exact .inl ⟨j, hj, henc j hs⟩
    · rcases hS N hN' with hc' | ⟨hc', -, ho⟩
      · exact .inl ⟨c, hc', hc⟩
      · exact .inr ⟨hc', hm ▸ ho⟩

/-- Lowering node `c`, unencoded, keeps the names owned: it appends names owned by `c`, by
readings pushed beyond the arena, or the name of the objective the model lacked. It changes no
node of the arena but `c`. -/
theorem encode_keeps {c : Nat} {top : Bool} (h : (encode c top).run b = .ok () b')
    (hN : b.NamesOwned) (hv : b.ValuesNodup) (hu : b.Unencoded c) :
    b'.NamesOwned ∧ b'.ValuesNodup ∧ b.nodes.size ≤ b'.nodes.size ∧
      ∀ i, i ≠ c → i < b.nodes.size → b'.nodes[i]? = b.nodes[i]? := by
  unfold encode at h
  obtain ⟨n, b₁, hn, h⟩ := run_bind_ok h
  rw [nodeAt_run] at hn
  split at hn
  case h_2 => cases hn
  next hnode =>
  cases hn
  obtain ⟨e, b₂, he, hs⟩ := run_bind_ok h
  rw [setEncoding_run] at hs
  cases hs
  have hl := encodeKind_names hv (fun vs hvs => hv c n vs hnode hvs) he
  have hunc : ¬b.Encoded c := fun ⟨m, hm, hs⟩ => by
    rw [hu m hm] at hs
    cases hs
  -- after `setEncoding`, node `c` is encoded and every other node is that of `b₂`
  have hget : ∀ i, i ≠ c → (b₂.nodes.modify c fun n => { n with encoding := some e })[i]? =
      b₂.nodes[i]? := fun i hi => by rw [Array.getElem?_modify, if_neg (Ne.symm hi)]
  have henc : ∀ i, b₂.Encoded i →
      Encoded { b₂ with nodes := b₂.nodes.modify c fun n => { n with encoding := some e } } i := by
    rintro i ⟨m, hm, hs⟩
    by_cases hic : i = c
    · subst hic
      refine ⟨{ m with encoding := some e }, ?_, rfl⟩
      rw [Array.getElem?_modify, if_pos rfl, hm]
      rfl
    · exact ⟨m, by rw [hget i hic, hm], hs⟩
  have hencc : Encoded { b₂ with nodes := b₂.nodes.modify c fun n => { n with encoding := some e } }
      c := by
    refine ⟨{ n with encoding := some e }, ?_, rfl⟩
    rw [Array.getElem?_modify, if_pos rfl, hl.readings.old c n hnode]
    rfl
  have hlt : c < b.nodes.size := (Array.getElem?_eq_some_iff.mp hnode).1
  refine ⟨hl.namesOwned hN hlt hunc rfl henc hencc, ?_, by simpa using hl.readings.size_le,
    fun i hi hlti => ?_⟩
  · -- `setEncoding` keeps the kinds of `b₂`
    intro i m vs hm hvs
    have hm₂ : ∃ m₂ : Node α, b₂.nodes[i]? = some m₂ ∧ m₂.kind = m.kind := by
      by_cases hic : i = c
      · subst hic
        rw [Array.getElem?_modify, if_pos rfl] at hm
        obtain ⟨m₂, hm₂, rfl⟩ := Option.map_eq_some_iff.mp hm
        exact ⟨m₂, hm₂, rfl⟩
      · exact ⟨m, by rw [← hget i hic]; exact hm, rfl⟩
    obtain ⟨m₂, hm₂, hk⟩ := hm₂
    rw [← hk] at hvs
    exact hl.readings.valuesNodup hv i m₂ vs hm₂ hvs
  · show (b₂.nodes.modify c _)[i]? = _
    rw [hget i hi, hl.readings.old i _ (Array.getElem?_eq_getElem hlti),
      Array.getElem?_eq_getElem hlti]

/-- A walk from node `c` keeps the names owned and the nodes after `c`. By strong induction on
`c`: the operands precede `c` and are walked first, so they leave `c` unencoded for its own
lowering. -/
theorem visit_keepsFrom (c : Nat) : ∀ (top : Bool) {b b' : Builder α},
    (visit c top).run b = .ok () b' → b.NamesOwned → b.ValuesNodup → KeepsFrom (c + 1) b b' := by
  induction c using Nat.strongRecOn with
  | ind c ih =>
  intro top b b' h hN hv
  rw [visit, run_bind, nodeAt_run] at h
  cases hn : b.nodes[c]? with
  | none =>
    rw [hn] at h
    cases h
  | some n =>
  rw [hn] at h
  dsimp only at h
  split at h
  · -- encoded as a column: at top level a relation has its indicator forced on
    next v _ =>
    split at h
    · have hforce : (forceOn v).run b = .ok () (b.withColumnOn v) := rfl
      rw [hforce] at h
      cases h
      exact ⟨hN.withColumnOn v, hv, le_rfl, fun _ _ _ => rfl⟩
    · cases h
      exact .refl _ hN hv
  · cases h
    exact .refl _ hN hv
  · -- not encoded: the operands, each below `c`, then the node itself
    next hnone =>
    obtain ⟨_, b₁, hcs, henc⟩ := run_bind_ok h
    have hkids : KeepsFrom c b b₁ := forM_keepsFrom _ (fun c' _ b₂ b₃ hrun hN₂ hv₂ => by
      split at hrun
      · next hc' => exact (ih c' hc' false hrun hN₂ hv₂).mono hc'
      · cases hrun) hcs hN hv
    have hlt : c < b.nodes.size := (Array.getElem?_eq_some_iff.mp hn).1
    have hu : b₁.Unencoded c := fun m hm => by
      rw [hkids.keeps c le_rfl hlt, hn, Option.some.injEq] at hm
      exact hm ▸ hnone
    obtain ⟨hN', hv', hsize, hkeep⟩ := encode_keeps henc hkids.names hkids.values hu
    refine ⟨hN', hv', hkids.size.trans hsize, fun i hi hlti => ?_⟩
    rw [hkeep i (by omega) (Nat.lt_of_lt_of_le hlti hkids.size), hkids.keeps i (by omega) hlti]

end Lowering

/-! ### Requests -/

namespace Builder

variable {α : Type} [Scalar α] {b : Builder α}

/-- An add keeps the names owned: a walk that succeeds keeps them so, and one that fails is
rolled back to the builder it started from. -/
theorem NamesOwned.addRun (h : b.NamesOwned) (hv : b.ValuesNodup) (hi : b.Idle) (id : Nat) :
    (b.addRun id).2.NamesOwned ∧ (b.addRun id).2.ValuesNodup := by
  unfold Builder.addRun
  split
  · exact ⟨h, hv⟩
  next hinit =>
  split
  · exact ⟨h, hv⟩
  next n hnode =>
  split
  · next b' hrun =>
    have hk := Lowering.visit_keepsFrom id true hrun h hv
    exact ⟨hk.names.of_nodes rfl fun _ hi => hi, hk.values⟩
  · next e b' hrun =>
    have hfail : (b.addRun id).1 = .error e := by simp [Builder.addRun, hinit, hnode, hrun]
    have hback := addRun_error hi hfail
    simp only [Builder.addRun, hinit, hnode, hrun, Bool.false_eq_true, if_false] at hback
    rw [hback]
    exact ⟨h, hv⟩

/-- Every request keeps the names of an idle builder owned and its value lists without
repeats. -/
theorem NamesOwned.exec (h : b.NamesOwned) (hv : b.ValuesNodup) (hi : b.Idle) (r : Request α) :
    (b.exec r).2.NamesOwned ∧ (b.exec r).2.ValuesNodup := by
  cases r with
  | add id => exact h.addRun hv hi id
  | addExpr k =>
    refine h.settle hv fun b' hb' => ?_
    obtain ⟨_, hok⟩ := map_snd_eq_ok hb'
    obtain ⟨k', lo, hi, c, hd, hr⟩ := addExpr_ok hok
    obtain rfl : b' = _ := congrArg Prod.snd hr
    exact h.pushNode hv (derive_values_nodup hd)
  | addIntArray xs =>
    refine h.settle hv fun b' hb' => ?_
    obtain ⟨_, hok⟩ := map_snd_eq_ok hb'
    rw [addIntArray_ok hok]
    exact ⟨h.of_nodes rfl fun _ hi => hi, hv⟩
  | addVarArray ids =>
    refine h.settle hv fun b' hb' => ?_
    obtain ⟨_, hok⟩ := map_snd_eq_ok hb'
    rw [addVarArray_ok hok]
    exact ⟨h.of_nodes rfl fun _ hi => hi, hv⟩
  | setRhs id k =>
    refine h.settle hv fun b' hok => ?_
    obtain ⟨n, hn, -, rfl⟩ := setRhs_ok hok
    exact h.setNode hv hn rfl rfl
  | initialise =>
    refine h.settle hv fun b' hok => ?_
    rw [initialise_ok hok]
    exact ⟨h.of_nodes rfl fun _ hi => hi, hv⟩
  | initialiseWith ds =>
    refine h.settle hv fun b' hok => ?_
    obtain ⟨-, cols, rfl⟩ := initialiseWith_ok hok
    exact ⟨h.of_encoded rfl id fun _ hi => hi, hv⟩

/-! ### Reachable builders -/

/-- Reachable builders name their columns after distinct owners, and list the values of their
integer variables without repeats. -/
theorem Reachable.namesOwned (hb : b.Reachable) : b.NamesOwned ∧ b.ValuesNodup := by
  induction hb with
  | new => exact ⟨namesOwned_of_names_nil rfl, valuesNodup_of_nodes_empty rfl⟩
  | withConfig h =>
    simp only [Builder.withConfig, bind, Except.bind, pure, Except.pure] at h
    split at h
    · cases h
    · cases h
      exact ⟨namesOwned_of_names_nil rfl, valuesNodup_of_nodes_empty rfl⟩
  | exec r hr ih => exact ih.1.exec ih.2 hr.idle r

/-- Column names are unique: every builder that requests reach from a new one, whether they
succeed or fail, gives its columns pairwise distinct names. -/
theorem reachable_names_nodup (hb : b.Reachable) : b.model.names.Nodup :=
  hb.namesOwned.1.nodup

/-- Adding an integer variable, then a node that is not there, which fails. -/
theorem failedAdd_names_nodup :
    ((((Builder.new : Builder Float).exec (.addExpr (.intVar 0 3 none))).2.exec (.add 0)).2.exec
        (.add 7)).2.Reachable ∧
      ((((Builder.new : Builder Float).exec (.addExpr (.intVar 0 3 none))).2.exec
        (.add 0)).2.exec (.add 7)).2.model.names.Nodup :=
  ⟨.exec _ (.exec _ (.exec _ .new)), reachable_names_nodup (.exec _ (.exec _ (.exec _ .new)))⟩

end Builder

end MipLowering
