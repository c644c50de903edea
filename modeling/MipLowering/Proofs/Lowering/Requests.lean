import MipLowering.Proofs.Lowering.Undo
import MipLowering.Lowering.Session

/-!
# Requests to a builder

A builder is used in place: each request of its public interface changes it and answers with
success or an error. `Builder.exec` runs one request so, and `Builder.Reachable` holds of the
builders that requests reach from a new one, failed requests included.

Between requests no add is in progress and every cached reading is a node of the arena
(`Builder.Idle`). From such a builder the rollback of a failed add is exact, since its walk only
grew the builder; every other request checks before it changes anything. So a request that
fails leaves the builder as it was. Once the model is initialised every request but
`initialiseWith` fails with `frozen`, and no request changes the builder again.

## Main definitions

* `MipLowering.Builder.Request`, `MipLowering.Builder.exec`, `MipLowering.Builder.execAll`.
* `MipLowering.Builder.Reachable`, `MipLowering.Builder.Idle`.

## Main results

* `MipLowering.Builder.addRun_cases` — an add fails and is undone, finds its root encoded, or
  grows the builder and encodes the root.
* `MipLowering.Builder.exec_evolves` — a request keeps a builder idle and keeps every encoding.
* `MipLowering.Builder.Reachable.idle` — reachable builders are idle.
* `MipLowering.Builder.failed_request_keeps_builder` — a failed request changes nothing, and a
  frozen builder never changes.
-/

namespace MipLowering

namespace Builder

variable {α : Type}

/-- A request of the public interface that may change a builder. The named node constructors
(`intVar`, `sum`, `rel`, `allDifferent`, …) are `addExpr` of their kinds. -/
inductive Request (α : Type) where
  | addExpr (k : Kind α)
  | add (id : Nat)
  | addIntArray (xs : List Int)
  | addVarArray (ids : List Nat)
  | setRhs (id : Nat) (k : α)
  | initialise
  | initialiseWith (decisions : List Nat)

/-- The outcome of a request that returns the changed builder or fails, keeping `b`. -/
def settle (b : Builder α) : Except (ModelError α) (Builder α) → Except (ModelError α) Unit × Builder α
  | .ok b' => (.ok (), b')
  | .error e => (.error e, b)

/-- A builder between requests: no add is in progress, and every cached reading is a node of
the arena. -/
structure Idle (b : Builder α) : Prop where
  encoded : b.encoded = []
  readings : ∀ p ∈ b.readings, p.2 < b.nodes.size

@[simp] theorem settle_ok (b b' : Builder α) : b.settle (.ok b') = (.ok (), b') := rfl

@[simp] theorem settle_error (b : Builder α) (e : ModelError α) :
    b.settle (.error e) = (.error e, b) := rfl

theorem settle_of_error {b : Builder α} {r : Except (ModelError α) (Builder α)}
    {e : ModelError α} (h : (b.settle r).1 = .error e) : (b.settle r).2 = b := by
  cases r with
  | ok b' => cases h
  | error e' => rfl

theorem update_encoded_of_nil {b : Builder α} (h : b.encoded = []) :
    { b with encoded := [] } = b := by
  cases b
  cases h
  rfl

/-- What a request may do to an idle builder: leave it idle, and keep the encoding of every node
that has one. -/
structure Evolves (b b' : Builder α) : Prop where
  idle : b'.Idle
  encoding : ∀ (i : Nat) (n : Node α) (e : Encoding), b.nodes[i]? = some n → n.encoding = some e →
    ∃ n', b'.nodes[i]? = some n' ∧ n'.encoding = some e

section Steps

variable {b : Builder α}

theorem Idle.evolves (hb : b.Idle) : Evolves b b :=
  ⟨hb, fun _ n _ hn he => ⟨n, hn, he⟩⟩

/-- A request that changes no node, no cached reading and no encoded list. -/
theorem Idle.evolves_of_nodes (hb : b.Idle) {b' : Builder α} (hnodes : b'.nodes = b.nodes)
    (hreadings : b'.readings = b.readings) (hencoded : b'.encoded = b.encoded) : Evolves b b' :=
  ⟨⟨hencoded.trans hb.encoded, by rw [hreadings, hnodes]; exact hb.readings⟩,
    fun _ n _ hn he => ⟨n, by rw [hnodes]; exact hn, he⟩⟩

theorem Idle.evolves_pushNode (hb : b.Idle) (n : Node α) : Evolves b (b.pushNode n).2 := by
  refine ⟨⟨hb.encoded, fun p hp => ?_⟩, fun i m e hm he => ⟨m, ?_, he⟩⟩
  · have := hb.readings p hp
    simp only [pushNode, Array.size_push]
    omega
  · simp only [pushNode]
    rw [Array.getElem?_push, if_neg]
    · exact hm
    · have := (Array.getElem?_eq_some_iff.mp hm).1
      omega

/-- A successful walk that grew the builder, with the list of encoded nodes cleared. -/
theorem Grows.evolves (hb : b.Idle) {b' : Builder α} (h : b.Grows b') :
    Evolves b { b' with encoded := [] } := by
  obtain ⟨new, hnew, hp⟩ := h.readings
  refine ⟨⟨rfl, fun p hp' => ?_⟩, fun i n e hn he => h.encoding_eq hn he⟩
  have hle := h.nodes_size_le
  rw [hnew, List.mem_append] at hp'
  rcases hp' with hp' | hp'
  · exact (hp p hp').2
  · have := hb.readings p hp'
    exact Nat.lt_of_lt_of_le this hle

/-- A pin that succeeds sets both ends of a sum without encoding to the right-hand side. -/
theorem setRhs_ok {id : Nat} {k : α} {b' : Builder α} (h : b.setRhs id k = .ok b') :
    ∃ n, b.nodes[id]? = some n ∧ n.encoding = none ∧
      b' = { b with nodes := b.nodes.setIfInBounds id { n with lower := k, upper := k } } := by
  cases hn : b.nodes[id]? with
  | none =>
    simp only [setRhs, node, hn, bind, Except.bind] at h
    split at h <;> cases h
  | some n =>
  simp only [setRhs, node, hn, bind, Except.bind, pure, Except.pure] at h
  split at h
  · cases h
  split at h
  · split at h
    · cases h
    next hnone =>
    cases h
    exact ⟨n, rfl, by simpa using hnone, rfl⟩
  · cases h

section Pin

variable {nodes : Array (Node α)} {id : Nat} {n : Node α}

/-- Pinning node `id` rewrites its bounds only: every node keeps its place, kind and flag. -/
theorem pin_keeps (hn : nodes[id]? = some n) (k : α) {i : Nat} {m : Node α}
    (hm : nodes[i]? = some m) :
    ∃ m' : Node α, (nodes.setIfInBounds id { n with lower := k, upper := k })[i]? = some m' ∧
      m'.kind = m.kind ∧ m'.continuous = m.continuous := by
  rw [Array.getElem?_setIfInBounds]
  by_cases hi : id = i
  · subst hi
    obtain rfl : n = m := Option.some.inj (hn.symm.trans hm)
    exact ⟨{ n with lower := k, upper := k },
      by rw [if_pos rfl, if_pos (Array.getElem?_eq_some_iff.1 hn).1], rfl, rfl⟩
  · exact ⟨m, by rw [if_neg hi]; exact hm, rfl, rfl⟩

/-- Every node of a pinned arena was there before, with its kind and flag. -/
theorem pin_back (hn : nodes[id]? = some n) (k : α) {i : Nat} {m' : Node α}
    (hm' : (nodes.setIfInBounds id { n with lower := k, upper := k })[i]? = some m') :
    ∃ m : Node α, nodes[i]? = some m ∧ m'.kind = m.kind ∧ m'.continuous = m.continuous := by
  rw [Array.getElem?_setIfInBounds] at hm'
  by_cases hi : id = i
  · subst hi
    rw [if_pos rfl, if_pos (Array.getElem?_eq_some_iff.1 hn).1, Option.some.injEq] at hm'
    subst hm'
    exact ⟨n, hn, rfl, rfl⟩
  · rw [if_neg hi] at hm'
    exact ⟨m', hm', rfl, rfl⟩

end Pin

/-- Registering an integer array appends it and changes nothing else. -/
theorem addIntArray_ok {xs : List Int} {i : Nat} {b' : Builder α}
    (h : b.addIntArray xs = .ok (i, b')) : b' = { b with intArrays := b.intArrays.push xs } := by
  simp only [addIntArray, bind, Except.bind, pure, Except.pure] at h
  split at h
  · cases h
  · cases h
    rfl

/-- Registering an array of nodes appends it and changes nothing else. -/
theorem addVarArray_ok {ids : List Nat} {i : Nat} {b' : Builder α}
    (h : b.addVarArray ids = .ok (i, b')) : b' = { b with varArrays := b.varArrays.push ids } := by
  simp only [addVarArray, bind, Except.bind, pure, Except.pure] at h
  split at h
  · cases h
  · split at h
    · cases h
    · cases h
      rfl

/-- Freezing the model sets the flag and changes nothing else. -/
theorem initialise_ok {b' : Builder α} (h : b.initialise = .ok b') :
    b' = { b with initialised := true } := by
  simp only [initialise] at h
  split at h
  · cases h
  · cases h
    rfl

/-- Pinning a sum keeps every encoding: the pinned node has none. -/
theorem setRhs_evolves (hb : b.Idle) {id : Nat} {k : α} {b' : Builder α}
    (h : b.setRhs id k = .ok b') : Evolves b b' := by
  obtain ⟨n, hn, hnone, rfl⟩ := setRhs_ok h
  refine ⟨⟨hb.encoded, by simpa using hb.readings⟩, fun i m e hm he => ?_⟩
  by_cases hi : id = i
  · subst hi
    rw [hn, Option.some.injEq] at hm
    subst hm
    rw [he] at hnone
    cases hnone
  · exact ⟨m, by simp [hi, hm], he⟩

theorem initialiseWith_ok {ds : List Nat} {b' : Builder α} (h : b.initialiseWith ds = .ok b') :
    b.initialised = false ∧
      ∃ cols, b' = { b with initialised := true, model := { b.model with decisions := cols } } := by
  cases hi : b.initialised with
  | true =>
    simp only [initialiseWith, initialise, hi, if_true, bind, Except.bind] at h
    split at h <;> cases h
  | false =>
    simp only [initialiseWith, initialise, hi, Bool.false_eq_true, if_false, bind,
      Except.bind] at h
    split at h
    · cases h
    · cases h
      exact ⟨rfl, _, rfl⟩

/-- A request that returns the changed builder keeps `b` when it fails. -/
theorem settle_evolves (hb : b.Idle) {r : Except (ModelError α) (Builder α)}
    (h : ∀ b', r = .ok b' → Evolves b b') : Evolves b (b.settle r).2 := by
  cases r with
  | ok b' => exact h b' rfl
  | error e => exact hb.evolves

theorem map_snd_eq_ok {β : Type} {x : Except (ModelError α) (β × Builder α)} {b' : Builder α}
    (h : x.map Prod.snd = .ok b') : ∃ a, x = .ok (a, b') := by
  cases x with
  | error e => cases h
  | ok p =>
    cases h
    exact ⟨p.1, rfl⟩

end Steps

variable [Scalar α]

/-- Runs a request on a builder used in place: its outcome, and the builder after it. -/
def exec (b : Builder α) : Request α → Except (ModelError α) Unit × Builder α
  | .addExpr k => b.settle ((b.addExpr k).map Prod.snd)
  | .add id => ((b.addRun id).1.map fun _ => (), (b.addRun id).2)
  | .addIntArray xs => b.settle ((b.addIntArray xs).map Prod.snd)
  | .addVarArray ids => b.settle ((b.addVarArray ids).map Prod.snd)
  | .setRhs id k => b.settle (b.setRhs id k)
  | .initialise => b.settle b.initialise
  | .initialiseWith ds => b.settle (b.initialiseWith ds)

/-- The builder after a sequence of requests. -/
def execAll (b : Builder α) (rs : List (Request α)) : Builder α :=
  rs.foldl (fun b r => (b.exec r).2) b

/-- The builders that requests reach from a new builder, or from one made with a validated
configuration, whether the requests succeed or fail. -/
inductive Reachable : Builder α → Prop
  | new : Reachable Builder.new
  | withConfig {c : LoweringConfig α} {b : Builder α} : Builder.withConfig c = .ok b → Reachable b
  | exec {b : Builder α} (r : Request α) : Reachable b → Reachable (b.exec r).2

@[simp] theorem execAll_nil (b : Builder α) : b.execAll [] = b := rfl

@[simp] theorem execAll_cons (b : Builder α) (r : Request α) (rs : List (Request α)) :
    b.execAll (r :: rs) = (b.exec r).2.execAll rs := rfl

/-! ### Adds -/

section Adds

variable {b : Builder α}

/-- An add of an encoded node succeeds and changes nothing, except that a relation, logic or pair
node with an indicator column has that column forced on. -/
theorem addRun_encoded (hb : b.Idle) (hi : b.initialised = false) {id : Nat} {n : Node α}
    {e : Encoding} (hn : b.nodes[id]? = some n) (he : n.encoding = some e) :
    b.addRun id = (.ok id, b.revisit true n.kind e) := by
  have hvisit : (Lowering.visit id true).run b = .ok () (b.revisit true n.kind e) := by
    rcases Lowering.visit_cases b id true with ⟨n', hn', e', he', hok⟩ | ⟨hun, -⟩
    · rw [hn, Option.some.injEq] at hn'
      subst hn'
      rw [he, Option.some.injEq] at he'
      subst he'
      exact hok
    · rw [hun n hn] at he
      cases he
  have hnode : b.node id = .ok n := by simp [node, hn]
  simp only [addRun, hi, hnode, hvisit, Bool.false_eq_true, if_false]
  rw [update_encoded_of_nil (by simpa using hb.encoded)]

/-- What an add does to an idle builder: it fails and leaves the builder as it was, finds its
root encoded, or grows the builder (clearing the list of encoded nodes) and leaves the root
encoded, as posted rows when it is a relation, logic or pair node. -/
theorem addRun_cases (hb : b.Idle) (id : Nat) :
    (∃ e, b.addRun id = (.error e, b)) ∨
    (∃ n e, b.initialised = false ∧ b.nodes[id]? = some n ∧ n.encoding = some e ∧
      b.addRun id = (.ok id, b.revisit true n.kind e)) ∨
    (b.initialised = false ∧ ∃ b', b.Grows b' ∧ b.addRun id = (.ok id, { b' with encoded := [] }) ∧
      ∃ n e, b'.nodes[id]? = some n ∧ n.encoding = some e ∧ (n.kind.isBinop = true → e = .posted)) := by
  cases hi : b.initialised with
  | true => exact .inl ⟨.frozen, by simp [addRun, hi]⟩
  | false =>
  cases hn : b.nodes[id]? with
  | none => exact .inl ⟨.unknownNode id, by simp [addRun, hi, node, hn]⟩
  | some n =>
  have hnode : b.node id = .ok n := by simp [node, hn]
  rcases Lowering.visit_cases b id true with ⟨n', hn', e, he, -⟩ | ⟨-, hwalk⟩
  · rw [hn, Option.some.injEq] at hn'
    subst hn'
    exact .inr (.inl ⟨n, e, rfl, rfl, he, addRun_encoded hb hi hn he⟩)
  · revert hwalk
    cases hrun : (Lowering.visit id true).run b with
    | ok u b' =>
      rintro ⟨hgrow, henc⟩
      refine .inr (.inr ⟨rfl, b', hgrow, by simp [addRun, hi, hnode, hrun], ?_⟩)
      simpa using henc
    | error e b' =>
      -- the walk only grew the builder, so the rollback gives it back
      intro hgrow
      exact .inl ⟨e, by simp [addRun, hi, hnode, hrun, rollback_checkpoint hgrow hb.readings]⟩

/-- An add that fails leaves an idle builder as it was. -/
theorem addRun_error (hb : b.Idle) {id : Nat} {e : ModelError α}
    (h : (b.addRun id).1 = .error e) : (b.addRun id).2 = b := by
  rcases addRun_cases hb id with ⟨e', heq⟩ | ⟨_, _, -, -, -, heq⟩ | ⟨-, _, -, heq, -⟩
  · rw [heq]
  · rw [heq] at h
    cases h
  · rw [heq] at h
    cases h

end Adds

section Steps

variable {b : Builder α}

theorem addRun_evolves (hb : b.Idle) (id : Nat) : Evolves b (b.addRun id).2 := by
  rcases addRun_cases hb id with ⟨_, heq⟩ | ⟨n, e, -, -, -, heq⟩ | ⟨-, b', hgrow, heq, -⟩
  · rw [heq]
    exact hb.evolves
  · rw [heq]
    exact hb.evolves_of_nodes revisit_nodes revisit_readings revisit_encoded
  · rw [heq]
    exact hgrow.evolves hb

/-- An admitted expression is pushed, unencoded, with the kind and bounds that `derive` gives
it. -/
theorem addExpr_ok {k : Kind α} {r : Nat × Builder α} (h : b.addExpr k = .ok r) :
    ∃ k' lo hi c, b.derive k = .ok (k', lo, hi, c) ∧ r = b.pushNode ⟨k', lo, hi, c, none⟩ := by
  cases hd : b.derive k with
  | error e =>
    simp only [addExpr, hd, bind, Except.bind] at h
    split at h <;> cases h
  | ok d =>
    obtain ⟨k', lo, hi, c⟩ := d
    simp only [addExpr, hd, bind, Except.bind, pure, Except.pure] at h
    split at h
    · cases h
    · exact ⟨k', lo, hi, c, rfl, (Except.ok.inj h).symm⟩

/-- Every request keeps an idle builder idle, and keeps every encoding. -/
theorem exec_evolves (hb : b.Idle) (r : Request α) : Evolves b (b.exec r).2 := by
  cases r with
  | add id => exact addRun_evolves hb id
  | addExpr k =>
    refine settle_evolves hb fun b' h => ?_
    obtain ⟨id, h⟩ := map_snd_eq_ok h
    obtain ⟨k', lo, hi, c, -, hr⟩ := addExpr_ok h
    obtain rfl : b' = _ := congrArg Prod.snd hr
    exact hb.evolves_pushNode _
  | addIntArray xs =>
    refine settle_evolves hb fun b' h => ?_
    obtain ⟨_, h⟩ := map_snd_eq_ok h
    rw [addIntArray_ok h]
    exact hb.evolves_of_nodes rfl rfl rfl
  | addVarArray ids =>
    refine settle_evolves hb fun b' h => ?_
    obtain ⟨_, h⟩ := map_snd_eq_ok h
    rw [addVarArray_ok h]
    exact hb.evolves_of_nodes rfl rfl rfl
  | setRhs id k => exact settle_evolves hb fun b' h => setRhs_evolves hb h
  | initialise =>
    refine settle_evolves hb fun b' h => ?_
    rw [initialise_ok h]
    exact hb.evolves_of_nodes rfl rfl rfl
  | initialiseWith ds =>
    refine settle_evolves hb fun b' h => ?_
    obtain ⟨-, cols, rfl⟩ := initialiseWith_ok h
    exact hb.evolves_of_nodes rfl rfl rfl

end Steps

/-- Every reachable builder is idle. -/
theorem Reachable.idle {b : Builder α} (h : b.Reachable) : b.Idle := by
  induction h with
  | new => exact ⟨rfl, by simp [Builder.new]⟩
  | withConfig h =>
    simp only [Builder.withConfig, bind, Except.bind, pure, Except.pure] at h
    split at h
    · cases h
    · cases h
      exact ⟨rfl, by simp⟩
  | exec r _ ih => exact (exec_evolves ih r).idle


/-! ### Failed requests and the frozen model -/

section Frozen

variable {b : Builder α}

/-- A request that fails leaves an idle builder as it was. -/
theorem exec_error (hb : b.Idle) {r : Request α} {e : ModelError α}
    (h : (b.exec r).1 = .error e) : (b.exec r).2 = b := by
  cases r with
  | add id =>
    cases hr : (b.addRun id).1 with
    | ok n => simp [exec, hr, Except.map] at h
    | error e' => exact addRun_error hb hr
  | addExpr k => exact settle_of_error h
  | addIntArray xs => exact settle_of_error h
  | addVarArray ids => exact settle_of_error h
  | setRhs id k => exact settle_of_error h
  | initialise => exact settle_of_error h
  | initialiseWith ds => exact settle_of_error h

/-- A frozen builder refuses every request but `initialiseWith` with `frozen`. -/
theorem exec_frozen (hi : b.initialised = true) {r : Request α}
    (hr : ∀ ds, r ≠ .initialiseWith ds) : b.exec r = (.error .frozen, b) := by
  cases r with
  | addExpr k => simp [exec, addExpr, hi, bind, Except.bind, Except.map]
  | add id => simp [exec, addRun, hi, Except.map]
  | addIntArray xs => simp [exec, addIntArray, hi, bind, Except.bind, Except.map]
  | addVarArray ids => simp [exec, addVarArray, hi, bind, Except.bind, Except.map]
  | setRhs id k => simp [exec, setRhs, hi, bind, Except.bind]
  | initialise => simp [exec, initialise, hi]
  | initialiseWith ds => exact absurd rfl (hr ds)

/-- No request changes a frozen builder: `initialiseWith` fails too, on a decision node or with
`frozen`. -/
theorem exec_frozen_snd (hi : b.initialised = true) (r : Request α) : (b.exec r).2 = b := by
  cases r with
  | initialiseWith ds =>
    cases h : b.initialiseWith ds with
    | ok b' =>
      have := (initialiseWith_ok h).1
      rw [hi] at this
      cases this
    | error e => simp [exec, h]
  | addExpr k => rw [exec_frozen hi fun _ h => by cases h]
  | add id => rw [exec_frozen hi fun _ h => by cases h]
  | addIntArray xs => rw [exec_frozen hi fun _ h => by cases h]
  | addVarArray ids => rw [exec_frozen hi fun _ h => by cases h]
  | setRhs id k => rw [exec_frozen hi fun _ h => by cases h]
  | initialise => rw [exec_frozen hi fun _ h => by cases h]

theorem execAll_frozen (hi : b.initialised = true) (rs : List (Request α)) : b.execAll rs = b := by
  induction rs with
  | nil => rfl
  | cons r rs ih => rw [execAll_cons, exec_frozen_snd hi r, ih]

end Frozen

/-- A request that fails leaves a reachable builder exactly as it was: its arena, flat model,
cached readings, arrays and flag. Once the model is initialised, every request but
`initialiseWith` fails with `frozen`, and no sequence of requests changes the builder again. -/
theorem failed_request_keeps_builder {b : Builder α} (hb : b.Reachable) :
    (∀ (r : Request α) (e : ModelError α), (b.exec r).1 = .error e → (b.exec r).2 = b) ∧
    (b.initialised = true →
      (∀ r : Request α, (∀ ds, r ≠ .initialiseWith ds) → b.exec r = (.error .frozen, b)) ∧
      ∀ rs : List (Request α), b.execAll rs = b) :=
  ⟨fun _ _ h => exec_error hb.idle h, fun hi => ⟨fun _ hr => exec_frozen hi hr, execAll_frozen hi⟩⟩

/-- A new builder once initialised refuses every request. -/
theorem initialised_builder_keeps_state :
    (Builder.new.exec Request.initialise : _ × Builder Float).2.Reachable ∧
    ((∀ (r : Request Float) (e : ModelError Float),
      ((Builder.new.exec Request.initialise).2.exec r).1 = .error e →
        ((Builder.new.exec Request.initialise).2.exec r).2 = (Builder.new.exec Request.initialise).2) ∧
    ((Builder.new.exec Request.initialise : _ × Builder Float).2.initialised = true →
      (∀ r : Request Float, (∀ ds, r ≠ .initialiseWith ds) →
        (Builder.new.exec Request.initialise).2.exec r =
          (.error .frozen, (Builder.new.exec Request.initialise).2)) ∧
      ∀ rs : List (Request Float),
        (Builder.new.exec Request.initialise).2.execAll rs = (Builder.new.exec Request.initialise).2)) :=
  ⟨.exec _ .new, failed_request_keeps_builder (.exec _ .new)⟩

end Builder

end MipLowering
