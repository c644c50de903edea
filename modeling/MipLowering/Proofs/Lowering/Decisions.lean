import Mathlib.Data.List.ReduceOption
import MipLowering.Proofs.Lowering.WellFormed
import MipLowering.Proofs.Lowering.Folding

/-!
# Resolving decision nodes to columns

`Builder.initialiseWith` freezes a model and records the columns its search branches on first. A
decision node stands for a column: its own, when it is backed by one; none, when it is encoded as
an affine sum or posted as a constraint; and an encoded view stands for what its base stands for,
so that a chain of views is followed down to the first node that is not a view. A node beyond the
arena, or one not yet encoded, met on the way blocks the decision.

`Resolves` and `Blocked` state this one rule per case, and `Builder.decisionColumn?` computes
exactly them on an arena whose operands precede their nodes, which every reachable builder has.
The decisions are checked in order and each column is recorded at its first occurrence, so
`initialiseWith` fails with the error of the first blocked decision, then with `frozen` on a
frozen builder, and otherwise freezes the model with the columns in order of first occurrence,
each once. A failure leaves the builder as it was.

## Main definitions

* `MipLowering.Builder.Resolves` — what a decision node stands for.
* `MipLowering.Builder.Blocked` — a decision node whose chain of views meets an unknown or an
  unencoded node.

## Main results

* `MipLowering.Builder.decisionColumn?_eq_ok_iff`, `MipLowering.Builder.decisionColumn?_eq_error_iff`
  — the resolution a builder computes.
* `MipLowering.Builder.foldlM_collectDecision` — the decision columns, in order of first
  occurrence.
* `MipLowering.Builder.initialiseWith_resolves_decisions` — what `initialiseWith` does on a
  reachable builder.
-/

namespace MipLowering

/-! ### Lists without repeats -/

section EraseDups

variable {β : Type} [BEq β] [LawfulBEq β]

theorem List.nodup_eraseDups : ∀ l : List β, l.eraseDups.Nodup
  | [] => List.nodup_nil
  | a :: as => by
    rw [List.eraseDups_cons, List.nodup_cons]
    refine ⟨?_, List.nodup_eraseDups (as.filter fun b => !b == a)⟩
    rw [List.mem_eraseDups, List.mem_filter]
    rintro ⟨-, hne⟩
    simp at hne
termination_by l => l.length
decreasing_by exact Nat.lt_succ_of_le (List.length_filter_le _ _)

/-- Appending a value to a list keeps the first occurrences: the value is added at the end unless
it occurs already. -/
theorem List.eraseDups_append_singleton (l : List β) (v : β) :
    (l ++ [v]).eraseDups = if l.eraseDups.contains v then l.eraseDups else l.eraseDups ++ [v] := by
  rw [List.eraseDups_append]
  by_cases hv : v ∈ l
  · simp [List.removeAll, hv]
  · simp [List.removeAll, hv, List.eraseDups_cons]

end EraseDups

namespace Builder

variable {α : Type}

/-! ### Resolution as relations -/

/-- What a decision node stands for: a column, or none. -/
inductive Resolves (nodes : Array (Node α)) : Nat → Option Nat → Prop
  /-- A node that is not a view, backed by a column. -/
  | column {id v : Nat} {n : Node α} : nodes[id]? = some n →
      (∀ shape base scale offset, n.kind ≠ .view shape base scale offset) →
      n.encoding = some (.column v) → Resolves nodes id (some v)
  /-- A node that is not a view, encoded as an affine sum or posted: it has no column. -/
  | noColumn {id : Nat} {n : Node α} : nodes[id]? = some n →
      (∀ shape base scale offset, n.kind ≠ .view shape base scale offset) →
      n.encoding = some .affine ∨ n.encoding = some .posted → Resolves nodes id none
  /-- An encoded view stands for what its base stands for. -/
  | view {id base : Nat} {n : Node α} {shape : ViewShape} {scale offset : α} {e : Encoding}
      {r : Option Nat} : nodes[id]? = some n → n.kind = .view shape base scale offset →
      n.encoding = some e → Resolves nodes base r → Resolves nodes id r

/-- The error a decision node runs into: the first node of its chain of views that is not in the
arena or not encoded. -/
inductive Blocked (nodes : Array (Node α)) : Nat → ModelError α → Prop
  | unknown {id : Nat} : nodes[id]? = none → Blocked nodes id (.unknownNode id)
  | unencoded {id : Nat} {n : Node α} : nodes[id]? = some n → n.encoding = none →
      Blocked nodes id (.notEncoded id)
  | view {id base : Nat} {n : Node α} {shape : ViewShape} {scale offset : α} {e : Encoding}
      {err : ModelError α} : nodes[id]? = some n → n.kind = .view shape base scale offset →
      n.encoding = some e → Blocked nodes base err → Blocked nodes id err

/-- Every node of an arena whose operands precede their nodes resolves or is blocked. -/
theorem resolves_or_blocked {nodes : Array (Node α)} (hp : OperandsPrecede nodes) (id : Nat) :
    (∃ r, Resolves nodes id r) ∨ ∃ e : ModelError α, Blocked nodes id e := by
  -- the base of a view precedes it, so the chain is followed by strong induction
  induction id using Nat.strong_induction_on with
  | _ id ih =>
  cases hn : nodes[id]? with
  | none => exact .inr ⟨_, .unknown hn⟩
  | some n =>
    cases he : n.encoding with
    | none => exact .inr ⟨_, .unencoded hn he⟩
    | some e =>
      by_cases hview : ∃ shape base scale offset, n.kind = .view shape base scale offset
      · obtain ⟨shape, base, scale, offset, hk⟩ := hview
        have hlt : base < id := hp id n hn base (by simp [hk, Kind.children])
        rcases ih base hlt with ⟨r, hr⟩ | ⟨err, hb⟩
        · exact .inl ⟨r, .view hn hk he hr⟩
        · exact .inr ⟨err, .view hn hk he hb⟩
      · push Not at hview
        cases e with
        | column v => exact .inl ⟨_, .column hn hview he⟩
        | affine => exact .inl ⟨_, .noColumn hn hview (.inl he)⟩
        | posted => exact .inl ⟨_, .noColumn hn hview (.inr he)⟩

/-! ### One step of `decisionColumn?` -/

section Steps

variable {b : Builder α} {id : Nat} {n : Node α}

theorem decisionColumn?_unknown (hn : b.nodes[id]? = none) :
    b.decisionColumn? id = .error (.unknownNode id) := by
  rw [decisionColumn?]
  simp only [node, hn]
  rfl

theorem decisionColumn?_unencoded (hn : b.nodes[id]? = some n) (he : n.encoding = none) :
    b.decisionColumn? id = .error (.notEncoded id) := by
  rw [decisionColumn?]
  simp only [node, hn, he, bind, Except.bind]

theorem decisionColumn?_view {shape : ViewShape} {base : Nat} {scale offset : α} {e : Encoding}
    (hn : b.nodes[id]? = some n) (hk : n.kind = .view shape base scale offset)
    (he : n.encoding = some e) (hlt : base < id) :
    b.decisionColumn? id = b.decisionColumn? base := by
  rw [decisionColumn?]
  simp only [node, hn, hk, he, bind, Except.bind, dif_pos hlt]

/-- A node that is not a view stands for its own column, if it has one. -/
theorem decisionColumn?_of_not_view {e : Encoding} (hn : b.nodes[id]? = some n)
    (hk : ∀ shape base scale offset, n.kind ≠ .view shape base scale offset)
    (he : n.encoding = some e) : b.decisionColumn? id = .ok n.column? := by
  rw [decisionColumn?]
  simp only [node, hn, he, bind, Except.bind, Node.column?]
  cases hkind : n.kind with
  | view shape base scale offset => exact absurd hkind (hk _ _ _ _)
  | _ => cases e <;> rfl

end Steps

/-! ### The resolution a builder computes -/

section Resolution

variable {b : Builder α} (hp : OperandsPrecede b.nodes)
include hp

theorem Resolves.decisionColumn?_eq {id : Nat} {r : Option Nat} (h : Resolves b.nodes id r) :
    b.decisionColumn? id = .ok r := by
  induction h with
  | column hn hk he =>
    rw [decisionColumn?_of_not_view hn hk he, Node.column?, he]
  | noColumn hn hk he =>
    rcases he with he | he <;> rw [decisionColumn?_of_not_view hn hk he, Node.column?, he]
  | view hn hk he _ ih =>
    rw [decisionColumn?_view hn hk he (hp _ _ hn _ (by simp [hk, Kind.children]))]
    exact ih

theorem Blocked.decisionColumn?_eq {id : Nat} {e : ModelError α} (h : Blocked b.nodes id e) :
    b.decisionColumn? id = .error e := by
  induction h with
  | unknown hn => exact decisionColumn?_unknown hn
  | unencoded hn he => exact decisionColumn?_unencoded hn he
  | view hn hk he _ ih =>
    rw [decisionColumn?_view hn hk he (hp _ _ hn _ (by simp [hk, Kind.children]))]
    exact ih

theorem decisionColumn?_eq_ok_iff {id : Nat} {r : Option Nat} :
    b.decisionColumn? id = .ok r ↔ Resolves b.nodes id r := by
  refine ⟨fun h => ?_, fun h => h.decisionColumn?_eq hp⟩
  rcases resolves_or_blocked hp id with ⟨r', hr⟩ | ⟨e, hb⟩
  · rw [hr.decisionColumn?_eq hp, Except.ok.injEq] at h
    exact h ▸ hr
  · rw [hb.decisionColumn?_eq hp] at h
    cases h

theorem decisionColumn?_eq_error_iff {id : Nat} {e : ModelError α} :
    b.decisionColumn? id = .error e ↔ Blocked b.nodes id e := by
  refine ⟨fun h => ?_, fun h => h.decisionColumn?_eq hp⟩
  rcases resolves_or_blocked hp id with ⟨r, hr⟩ | ⟨e', hb⟩
  · rw [hr.decisionColumn?_eq hp] at h
    cases h
  · rw [hb.decisionColumn?_eq hp, Except.error.injEq] at h
    exact h ▸ hb

end Resolution

/-! ### Collecting the decision columns -/

section Collect

variable {b : Builder α} {acc : List Nat} {id : Nat}

theorem collectDecision_some {v : Nat} (h : b.decisionColumn? id = .ok (some v)) :
    b.collectDecision acc id = .ok (if acc.contains v then acc else acc ++ [v]) := by
  simp only [collectDecision, h]
  rfl

theorem collectDecision_none (h : b.decisionColumn? id = .ok none) :
    b.collectDecision acc id = .ok acc := by
  simp only [collectDecision, h]
  rfl

theorem collectDecision_error {e : ModelError α} (h : b.decisionColumn? id = .error e) :
    b.collectDecision acc id = .error e := by
  simp only [collectDecision, h]
  rfl

variable (hp : OperandsPrecede b.nodes)
include hp

/-- Decisions that all resolve add their columns, in order of first occurrence, after those of
the decisions before them. -/
theorem foldlM_collectDecision_from {ds : List Nat} {rs : List (Option Nat)}
    (hds : List.Forall₂ (Resolves b.nodes) ds rs) (pre : List (Option Nat)) :
    ds.foldlM b.collectDecision pre.reduceOption.eraseDups =
      .ok (pre ++ rs).reduceOption.eraseDups := by
  induction hds generalizing pre with
  | nil => rw [List.foldlM_nil, List.append_nil]; rfl
  | @cons d r ds rs hd _ ih =>
    rw [List.foldlM_cons]
    cases r with
    | none =>
      have hpre : (pre ++ [none]).reduceOption = pre.reduceOption := by
        rw [List.reduceOption_append, List.reduceOption_singleton, Option.toList_none,
          List.append_nil]
      rw [collectDecision_none (hd.decisionColumn?_eq hp), ok_bind_eq, ← hpre, ih,
        List.append_assoc, List.singleton_append]
    | some v =>
      -- the step adds `v` exactly as `eraseDups` does at the end of the list
      have hpre : (pre ++ [some v]).reduceOption.eraseDups =
          if pre.reduceOption.eraseDups.contains v then pre.reduceOption.eraseDups
          else pre.reduceOption.eraseDups ++ [v] := by
        rw [List.reduceOption_append, List.reduceOption_singleton, Option.toList_some,
          List.eraseDups_append_singleton]
      rw [collectDecision_some (hd.decisionColumn?_eq hp), ok_bind_eq, ← hpre, ih,
        List.append_assoc, List.singleton_append]

theorem foldlM_collectDecision {ds : List Nat} {rs : List (Option Nat)}
    (hds : List.Forall₂ (Resolves b.nodes) ds rs) :
    ds.foldlM b.collectDecision [] = .ok rs.reduceOption.eraseDups :=
  foldlM_collectDecision_from hp hds []

/-- The first blocked decision stops the collection with its error. -/
theorem foldlM_collectDecision_blocked {d : Nat} {e : ModelError α} (post : List Nat) :
    ∀ pre : List Nat, (∀ x ∈ pre, ∃ r, Resolves b.nodes x r) → Blocked b.nodes d e →
      ∀ acc : List Nat, (pre ++ d :: post).foldlM b.collectDecision acc = .error e
  | [], _, hd, acc => by
    rw [List.nil_append, List.foldlM_cons, collectDecision_error (hd.decisionColumn?_eq hp)]
    rfl
  | x :: pre, hpre, hd, acc => by
    obtain ⟨r, hx⟩ := hpre x List.mem_cons_self
    have hrest := foldlM_collectDecision_blocked post pre
      (fun y hy => hpre y (List.mem_cons_of_mem x hy)) hd
    rw [List.cons_append, List.foldlM_cons]
    cases r with
    | none => rw [collectDecision_none (hx.decisionColumn?_eq hp), ok_bind_eq, hrest]
    | some v => rw [collectDecision_some (hx.decisionColumn?_eq hp), ok_bind_eq, hrest]

end Collect

/-! ### Initialising with decisions -/

section Initialise

variable {b : Builder α} {ds : List Nat} (hp : OperandsPrecede b.nodes)
include hp

theorem initialiseWith_blocked {pre post : List Nat} {d : Nat} {e : ModelError α}
    (hds : ds = pre ++ d :: post) (hpre : ∀ x ∈ pre, ∃ r, Resolves b.nodes x r)
    (hd : Blocked b.nodes d e) : b.initialiseWith ds = .error e := by
  simp only [initialiseWith, hds, foldlM_collectDecision_blocked hp post pre hpre hd []]
  rfl

theorem initialiseWith_frozen {rs : List (Option Nat)} (hds : List.Forall₂ (Resolves b.nodes) ds rs)
    (hi : b.initialised = true) : b.initialiseWith ds = .error .frozen := by
  simp only [initialiseWith, foldlM_collectDecision hp hds, initialise, hi, if_true]
  rfl

theorem initialiseWith_resolved {rs : List (Option Nat)}
    (hds : List.Forall₂ (Resolves b.nodes) ds rs) (hi : b.initialised = false) :
    b.initialiseWith ds = .ok
      { b with
        initialised := true
        model := { b.model with decisions := rs.reduceOption.eraseDups } } := by
  simp only [initialiseWith, foldlM_collectDecision hp hds, initialise, hi, Bool.false_eq_true,
    if_false]
  rfl

end Initialise

variable [Scalar α] {b : Builder α}

/-- What `initialiseWith` does on a reachable builder. Every decision node resolves to a column
or none, or is blocked. The first blocked decision names the error; with every decision
resolved, a frozen builder refuses with `frozen`, and any other is frozen with the columns of the
decisions, in order of first occurrence and each once. A failure leaves the builder as it was. -/
theorem initialiseWith_resolves_decisions (hb : b.Reachable) (ds : List Nat) :
    (∀ d, (∃ r, Resolves b.nodes d r) ∨ ∃ e : ModelError α, Blocked b.nodes d e) ∧
    (∀ pre d post (e : ModelError α), ds = pre ++ d :: post →
      (∀ x ∈ pre, ∃ r, Resolves b.nodes x r) → Blocked b.nodes d e →
        b.initialiseWith ds = .error e) ∧
    (∀ rs : List (Option Nat), List.Forall₂ (Resolves b.nodes) ds rs →
      (b.initialised = true → b.initialiseWith ds = .error .frozen) ∧
      (b.initialised = false → b.initialiseWith ds = .ok
        { b with
          initialised := true
          model := { b.model with decisions := rs.reduceOption.eraseDups } }) ∧
      rs.reduceOption.eraseDups.Nodup) ∧
    (∀ e, b.initialiseWith ds = .error e → b.exec (.initialiseWith ds) = (.error e, b)) := by
  have hp : OperandsPrecede b.nodes := hb.sound.children
  refine ⟨resolves_or_blocked hp, fun pre d post e hds hpre hd => initialiseWith_blocked hp hds hpre hd,
    fun rs hds => ⟨initialiseWith_frozen hp hds, initialiseWith_resolved hp hds,
      List.nodup_eraseDups _⟩, fun e he => ?_⟩
  simp only [exec, he, settle_error]

/-- An integer variable and a shifted view of it, the view added. -/
def shiftedBuilder : Builder ERat :=
  Builder.new.execAll [.addExpr (.intVar 0 5 none), .addExpr (.view .shift 0 (.fin 1) (.fin 2)), .add 1]

/-- A view and its base, named as decisions, give their one column once. -/
theorem shiftedBuilder_one_decision :
    shiftedBuilder.Reachable ∧ shiftedBuilder.initialiseWith [1, 0] = .ok
      { shiftedBuilder with
        initialised := true
        model := { shiftedBuilder.model with decisions := [0] } } := by
  have hb : shiftedBuilder.Reachable := .exec _ (.exec _ (.exec _ .new))
  have hnodes : shiftedBuilder.nodes =
      #[⟨.intVar 0 5 none, .fin 0, .fin 5, false, some (.column 0)⟩,
        ⟨.view .shift 0 (.fin 1) (.fin 2), .fin 2, .fin 7, false, some .affine⟩] := by
    with_unfolding_all rfl
  have hinit : shiftedBuilder.initialised = false := by with_unfolding_all rfl
  -- the variable stands for its column, and the view for the variable's
  have h₀ : Resolves shiftedBuilder.nodes 0 (some 0) :=
    .column (by rw [hnodes]; rfl) (by intro _ _ _ _ h; cases h) (by rfl)
  have h₁ : Resolves shiftedBuilder.nodes 1 (some 0) := .view (by rw [hnodes]; rfl) rfl rfl h₀
  exact ⟨hb, ((initialiseWith_resolves_decisions hb [1, 0]).2.2.1 [some 0, some 0]
    (.cons h₁ (.cons h₀ .nil))).2.1 hinit⟩

end Builder

end MipLowering
