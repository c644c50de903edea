import MipLowering.Proofs.Lowering.Requests

/-!
# Encodings are set once, and an add repeated is one add

No request changes or clears the encoding of a node that has one, whether it succeeds or fails,
so along any sequence of requests an encoding stays as it was first set. An add of a node that
is encoded already succeeds and changes nothing but, for a relation, logic or pair node first
met nested, forcing its indicator column on. A nested walk meets an encoded node without any
change, so a sub-expression shared by several roots is lowered once. Adding a node twice is
adding it once: the second add answers as the first and leaves the builder as the first left it,
since a relation, logic or pair node added at top level is posted as rows, with no column to
force on again.

## Main results

* `MipLowering.Builder.execAll_keeps_encoding` — encodings persist along every run.
* `MipLowering.Builder.addRun_addRun` — a repeated add is one add.
* `MipLowering.Builder.encodings_persist_and_add_idempotent`.
-/

namespace MipLowering

/-- Raising to at least `b` twice is raising once. -/
theorem Scalar.max_max_right {α : Type} [Scalar α] (a b : α) :
    Scalar.max (Scalar.max a b) b = Scalar.max a b := by
  unfold Scalar.max
  by_cases hn : Scalar.isNaN b <;> by_cases hlt : b < a <;> simp [hn, hlt]

namespace Builder

variable {α : Type} [Scalar α] {b : Builder α}

/-- Forcing a column on twice is forcing it on once. -/
theorem withColumnOn_withColumnOn (v : Nat) :
    (b.withColumnOn v).withColumnOn v = b.withColumnOn v := by
  let on : Column α → Column α := fun c => { c with lower := Scalar.max c.lower Scalar.one }
  have hcols : (b.model.columns.modify v on).modify v on = b.model.columns.modify v on := by
    apply Array.ext
    · simp
    · intro i _ _
      simp only [Array.getElem_modify]
      split
      · simp [on, Scalar.max_max_right]
      · rfl
  simp only [withColumnOn, FlatModel.modifyColumn]
  rw [hcols]

/-- Meeting an encoded node twice is meeting it once. -/
theorem revisit_revisit (top : Bool) (k : Kind α) (e : Encoding) :
    (b.revisit top k e).revisit top k e = b.revisit top k e := by
  cases e with
  | column v =>
    simp only [revisit]
    split
    · exact withColumnOn_withColumnOn v
    · rfl
  | affine => rfl
  | posted => rfl

/-- Encodings persist along every sequence of requests from a reachable builder. -/
theorem execAll_keeps_encoding (hb : b.Reachable) (rs : List (Request α)) {i : Nat}
    {n : Node α} {e : Encoding} (hn : b.nodes[i]? = some n) (he : n.encoding = some e) :
    ∃ n', (b.execAll rs).nodes[i]? = some n' ∧ n'.encoding = some e := by
  -- the induction carries reachability, from which each step keeps the encoding
  induction rs generalizing b n with
  | nil => exact ⟨n, hn, he⟩
  | cons r rs ih =>
    obtain ⟨n', hn', he'⟩ := (exec_evolves hb.idle r).encoding i n e hn he
    exact ih (.exec r hb) hn' he'

/-- A nested walk meets an encoded node without any change. -/
theorem visit_nested_encoded {id : Nat} {n : Node α} {e : Encoding}
    (hn : b.nodes[id]? = some n) (he : n.encoding = some e) :
    (Lowering.visit id false).run b = .ok () b := by
  rcases Lowering.visit_cases b id false with ⟨n', hn', e', -, hok⟩ | ⟨hun, -⟩
  · rw [hok, revisit_false]
  · rw [hun n hn] at he
    cases he

/-- Adding a node twice is adding it once: the second add answers as the first did and leaves
the builder as the first left it. -/
theorem addRun_addRun (hb : b.Idle) (id : Nat) : (b.addRun id).2.addRun id = b.addRun id := by
  rcases addRun_cases hb id with ⟨e, heq⟩ | ⟨n, e, hi, hn, he, heq⟩ |
    ⟨hi, b', hgrow, heq, n, e, hn, he, hposted⟩
  · -- the first add failed and left the builder as it was
    rw [heq]
    exact heq
  · -- the root was encoded: the second add meets it as the first did
    have hb₁ : (b.revisit true n.kind e).Idle :=
      (hb.evolves_of_nodes revisit_nodes revisit_readings revisit_encoded).idle
    rw [heq]
    dsimp only
    rw [addRun_encoded hb₁ (by simpa using hi) (by simpa using hn) he, revisit_revisit]
  · -- the first add encoded the root, as posted rows if it is a relation, logic or pair node
    have hb₁ := (hgrow.evolves hb).idle
    rw [heq]
    dsimp only
    rw [addRun_encoded hb₁ (by simpa [hgrow.initialised] using hi) hn he]
    cases e with
    | column v =>
      simp only [revisit]
      split
      · next hbinop =>
        have := hposted (by simpa using hbinop)
        cases this
      · rfl
    | affine => rfl
    | posted => rfl

/-- Along every sequence of requests from a reachable builder, a node keeps the encoding it has.
An add of an encoded node into a model not yet initialised answers with the node and changes
nothing but, for a relation, logic or pair node with an indicator column, the lower bound of
that column, raised to at least `1`; a nested walk meets it without change. Adding a node twice
is adding it once. -/
theorem encodings_persist_and_add_idempotent (hb : b.Reachable) :
    (∀ (rs : List (Request α)) (i : Nat) (n : Node α) (e : Encoding), b.nodes[i]? = some n →
      n.encoding = some e → ∃ n', (b.execAll rs).nodes[i]? = some n' ∧ n'.encoding = some e) ∧
    (b.initialised = false → ∀ (id : Nat) (n : Node α) (e : Encoding), b.nodes[id]? = some n →
      n.encoding = some e →
        b.addRun id = (.ok id, b.revisit true n.kind e) ∧
        (Lowering.visit id false).run b = .ok () b) ∧
    ∀ id : Nat, (b.addRun id).2.addRun id = b.addRun id :=
  ⟨fun rs _ _ _ hn he => execAll_keeps_encoding hb rs hn he,
    fun hi _ _ _ hn he => ⟨addRun_encoded hb.idle hi hn he, visit_nested_encoded hn he⟩,
    addRun_addRun hb.idle⟩

/-- The statement at a builder holding one boolean variable, added as a root. -/
theorem encodings_persist_after_one_root :
    (Builder.new.execAll [.addExpr (.intVar 0 1 none), .add 0] : Builder Float).Reachable ∧
    ((∀ (rs : List (Request Float)) (i : Nat) (n : Node Float) (e : Encoding),
      (Builder.new.execAll [.addExpr (.intVar 0 1 none), .add 0] : Builder Float).nodes[i]? =
        some n → n.encoding = some e →
      ∃ n', ((Builder.new.execAll [.addExpr (.intVar 0 1 none), .add 0] : Builder Float).execAll
        rs).nodes[i]? = some n' ∧ n'.encoding = some e) ∧
    ((Builder.new.execAll [.addExpr (.intVar 0 1 none), .add 0] : Builder Float).initialised =
        false →
      ∀ (id : Nat) (n : Node Float) (e : Encoding),
      (Builder.new.execAll [.addExpr (.intVar 0 1 none), .add 0] : Builder Float).nodes[id]? =
        some n → n.encoding = some e →
        (Builder.new.execAll [.addExpr (.intVar 0 1 none), .add 0] : Builder Float).addRun id =
          (.ok id, (Builder.new.execAll [.addExpr (.intVar 0 1 none), .add 0]).revisit true
            n.kind e) ∧
        (Lowering.visit id false).run
            (Builder.new.execAll [.addExpr (.intVar 0 1 none), .add 0] : Builder Float) =
          .ok () (Builder.new.execAll [.addExpr (.intVar 0 1 none), .add 0])) ∧
    ∀ id : Nat,
      ((Builder.new.execAll [.addExpr (.intVar 0 1 none), .add 0] : Builder Float).addRun
        id).2.addRun id =
      (Builder.new.execAll [.addExpr (.intVar 0 1 none), .add 0] : Builder Float).addRun id) :=
  ⟨.exec _ (.exec _ .new), encodings_persist_and_add_idempotent (.exec _ (.exec _ .new))⟩

end Builder

end MipLowering
