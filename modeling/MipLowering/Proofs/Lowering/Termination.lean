import MipLowering.Proofs.Lowering.WellFormed
import MipLowering.Proofs.Lowering.Folding
import Mathlib.Logic.Function.Iterate

/-!
# The lowering recursions end

Three recursions run while a root is added: the depth-first walk `Lowering.visit`, the fold
`Row.addNode` of a node into a row, and the explicit domain `domainValues` of a node. Each calls
itself on the operands of a node, and the definitions guard every such call with `c < id`, which
makes them well founded. The walk they describe has no such guard, and its recursion is not even
on smaller ids: the reading of a non-boolean operand pushes a node `x ≠ 0` above all others and
walks it.

Each recursion is given here as one unfolding with its recursive calls left open and unguarded:
`Lowering.walkStep`, `Row.addNodeStep` and `domainValuesStep`. Inside the walk, a reading walks the
node it pushes through the same open call (`Lowering.readingThen`). Unfolding `n` times from a
continuation `k` is the recursion cut at depth `n`; when the outcome does not depend on `k`, no
call goes deeper than `n`, so the recursion ends. Here it ends with the outcome of the guarded
definition.

On a sound builder every operand precedes its node, so the depth is bounded by the id the
recursion starts from. The node `x ≠ 0` that a reading pushes has one operand, `x`, encoded
before the reading, so its walk stops two levels down. `Lowering.Agrees` says that two steps run
alike from sound builders; it composes along a walk with the `Sustains` facts of the guarded
steps.

## Main definitions

* `MipLowering.Lowering.walkStep`, `MipLowering.Lowering.readingThen` — the walk, open.
* `MipLowering.Row.addNodeStep`, `MipLowering.domainValuesStep` — the fold and the domain, open.
* `MipLowering.Lowering.Agrees` — two steps that run alike.

## Main results

* `MipLowering.Lowering.walkStep_iterate_agrees` — cut at depth `id + 3` or more, the open walk
  of node `id` runs as `visit`.
* `MipLowering.Row.addNodeStep_iterate`, `MipLowering.domainValuesStep_iterate` — cut at depth
  `id + 1` or more, the open fold and domain are `Row.addNode` and `domainValues`.
* `MipLowering.Builder.lowering_recursions_end` — the three on every sound builder.
-/

namespace MipLowering

namespace Lowering

open Builder (Stable)

variable {α β γ : Type} [Scalar α]

/-! ### Steps that run alike -/

/-- From every sound builder with `P`, the steps `x` and `y` run alike. -/
def Agrees (P : Builder α → Prop) (x y : Lowering α β) : Prop :=
  ∀ b, b.Sound → P b → x.run b = y.run b

namespace Agrees

variable {P P' : Builder α → Prop} {x y : Lowering α β}

protected theorem rfl : Agrees P x x := fun _ _ _ => rfl

theorem weaken (h : Agrees P x y) (hP : ∀ b, P' b → P b) : Agrees P' x y :=
  fun b hb h' => h b hb (hP b h')

/-- A fact that follows from every builder with `P` may be assumed. -/
theorem assume {F : Prop} (hF : ∀ b, b.Sound → P b → F) (h : F → Agrees P x y) : Agrees P x y :=
  fun b hb hP => h (hF b hb hP) b hb hP

/-- Steps that run alike, then steps that run alike from where the guarded one ends. -/
theorem bind {f g : β → Lowering α γ} {Q : β → Builder α → Prop} (hxy : Agrees P x y)
    (hy : Sustains P y Q) (hfg : ∀ a, Agrees (Q a) (f a) (g a)) : Agrees P (x >>= f) (y >>= g) := by
  intro b hb hP
  rw [run_bind, run_bind, hxy b hb hP]
  cases h : y.run b with
  | ok a b' =>
    obtain ⟨-, hs, hq⟩ := hy b a b' hb hP h
    exact hfg a b' hs hq
  | error e b' => rfl

/-- Steps that run alike, then one and the same step. -/
theorem bind_right {f : β → Lowering α γ} (hxy : Agrees P x y) : Agrees P (x >>= f) (y >>= f) := by
  intro b hb hP
  rw [run_bind, run_bind, hxy b hb hP]

theorem get_bind {f g : Builder α → Lowering α β}
    (h : ∀ b₀, Agrees (fun b => P b ∧ b = b₀) (f b₀) (g b₀)) :
    Agrees P (MonadState.get >>= f) (MonadState.get >>= g) :=
  fun b hb hP => h b b hb ⟨hP, rfl⟩

/-- Two loops whose steps run alike, the guarded one keeping `I`. -/
theorem forM {f g : β → Lowering α PUnit} {l : List β} {I : Builder α → Prop}
    (hfg : ∀ y ∈ l, Agrees I (f y) (g y)) (hg : ∀ y ∈ l, Sustains I (g y) (fun _ => I)) :
    Agrees I (l.forM f) (l.forM g) := by
  induction l with
  | nil => exact .rfl
  | cons y ys ih =>
    show Agrees I (f y >>= fun _ => ys.forM f) (g y >>= fun _ => ys.forM g)
    exact (hfg y List.mem_cons_self).bind (hg y List.mem_cons_self) fun _ =>
      ih (fun z hz => hfg z (List.mem_cons_of_mem _ hz)) fun z hz => hg z (List.mem_cons_of_mem _ hz)

end Agrees

/-! ### The walk with its recursion open -/

/-- The 0/1 reading of a node as the walk makes it: the new node `x ≠ 0` is lowered by walking it
with `walk`. -/
def readingThen (walk : Nat → Bool → Lowering α Unit) (id : Nat) : Lowering α Reading := do
  let n ← nodeAt id
  if n.isBoolean then pure (.node id)
  else match (← get).readings.lookup id with
    | some ne => pure (.node ne)
    | none =>
      let ne ← pushNode ⟨.rel .ne id (.const Scalar.zero), Scalar.zero, Scalar.one, false, none⟩
      walk ne false
      modify fun b => { b with readings := (id, ne) :: b.readings }
      pure (.node ne)

/-- Negation, its operand read through `readingThen walk`. -/
def encodeNotThen (walk : Nat → Bool → Lowering α Unit) (id a : Nat) (top : Bool) :
    Lowering α Encoding := do
  let x ← readingThen walk a
  if top then
    post (← readingRow Scalar.negInfinity Scalar.zero none [x] Scalar.one)
    pure .posted
  else
    let z ← indicator id ""
    post (← readingRow Scalar.one Scalar.one (some z) [x] Scalar.one)
    pure (.column z)

/-- Conjunction, its operands read through `readingThen walk`. -/
def encodeAndThen (walk : Nat → Bool → Lowering α Unit) (id a b : Nat) (top : Bool) :
    Lowering α Encoding := do
  let x ← readingThen walk a
  let y ← readingThen walk b
  if top then
    post (← readingRow Scalar.one Scalar.infinity none [x] Scalar.one)
    post (← readingRow Scalar.one Scalar.infinity none [y] Scalar.one)
    pure .posted
  else
    let z ← indicator id ""
    postAnd z x y
    pure (.column z)

/-- Disjunction, its operands read through `readingThen walk`. -/
def encodeOrThen (walk : Nat → Bool → Lowering α Unit) (id a b : Nat) (top : Bool) :
    Lowering α Encoding := do
  let x ← readingThen walk a
  let y ← readingThen walk b
  if top then
    post (← readingRow Scalar.one Scalar.infinity none [x, y] Scalar.one)
    pure .posted
  else
    let z ← indicator id ""
    postOr z x y
    pure (.column z)

/-- Lowers node `id` of kind `k`, reading the operands of a connective through
`readingThen walk`; no other kind reads its operands. -/
def encodeKindThen (walk : Nat → Bool → Lowering α Unit) (id : Nat) (k : Kind α) (top : Bool) :
    Lowering α Encoding :=
  match k with
  | .not a => encodeNotThen walk id a top
  | .and a b => encodeAndThen walk id a b top
  | .or a b => encodeOrThen walk id a b top
  | k => encodeKind id k top

/-- One unfolding of the depth-first walk, unguarded: the operands, and the nodes that readings
push, are walked through `walk`. -/
def walkStep (walk : Nat → Bool → Lowering α Unit) (id : Nat) (top : Bool) : Lowering α Unit := do
  let n ← nodeAt id
  match n.encoding with
  | some (.column v) => if top && n.kind.isBinop then forceOn v
  | some _ => pure ()
  | none =>
    n.kind.children.forM fun c => walk c false
    let n ← nodeAt id
    setEncoding id (← encodeKindThen walk id n.kind top)

/-! ### The nested walk of a reading -/

/-- `walk` lowers a node `x ≠ 0` just pushed for an encoded `x` as `reading` does. -/
def WalksReadings (walk : Nat → Bool → Lowering α Unit) : Prop :=
  ∀ ne x, Agrees (fun b => b.nodes[ne]? =
      some ⟨.rel .ne x (.const Scalar.zero), Scalar.zero, Scalar.one, false, none⟩ ∧ b.Encoded x)
    (walk ne false)
    (do setEncoding ne (← encodeRel ne .ne (← difference x (.const Scalar.zero) Scalar.zero) false))

/-- A nested walk of an encoded node does nothing. -/
theorem walkStep_encoded_run {walk : Nat → Bool → Lowering α Unit} {b : Builder α} {x : Nat}
    {m : Node α} (hm : b.nodes[x]? = some m) (he : m.encoding.isSome) :
    (walkStep walk x false).run b = .ok () b := by
  obtain ⟨e, he⟩ := Option.isSome_iff_exists.mp he
  rw [walkStep, run_bind, nodeAt_run, hm]
  simp only [he]
  cases e <;> rfl

/-- Two unfoldings suffice for the node that a reading pushes: its one operand is encoded, and
its own lowering reads nothing. -/
theorem walksReadings_walkStep (k : Nat → Bool → Lowering α Unit) :
    WalksReadings (walkStep (walkStep k)) := by
  rintro ne x b - ⟨hne, m, hm, he⟩
  have hnode : (nodeAt ne).run b =
      .ok ⟨.rel .ne x (.const Scalar.zero), Scalar.zero, Scalar.one, false, none⟩ b := by
    rw [nodeAt_run, hne]
  have hloop : ([x].forM fun c => walkStep k c false).run b = .ok () b := by
    show (walkStep k x false >>= fun _ => pure ()).run b = _
    rw [run_bind, walkStep_encoded_run hm he]
    rfl
  rw [walkStep, run_bind, hnode]
  show (([x].forM fun c => walkStep k c false) >>= fun _ => _).run b = _
  rw [run_bind, hloop]
  show (nodeAt ne >>= fun n => encodeKindThen (walkStep k) ne n.kind false >>= _).run b = _
  rw [run_bind, hnode]
  show ((difference x (.const Scalar.zero) Scalar.zero >>= fun e => encodeRel ne .ne e false) >>=
    fun e => setEncoding ne e).run b = _
  rw [bind_assoc]

/-- Cut at depth two or more, the open walk lowers the nodes that readings push. -/
theorem walksReadings_iterate (k : Nat → Bool → Lowering α Unit) {m : Nat} (hm : 2 ≤ m) :
    WalksReadings (walkStep^[m] k) := by
  obtain ⟨j, rfl⟩ : ∃ j, m = j + 2 := ⟨m - 2, by omega⟩
  rw [Function.iterate_succ_apply', Function.iterate_succ_apply']
  exact walksReadings_walkStep _

/-- A reading that walks the node it pushes runs as `reading`. -/
theorem readingThen_agrees {walk : Nat → Bool → Lowering α Unit} (hw : WalksReadings walk)
    {P : Builder α → Prop} (hP : Stable P) {x : Nat} (hx : ∀ b, P b → b.Encoded x) :
    Agrees P (readingThen walk x) (reading x) := by
  unfold readingThen reading
  refine Agrees.bind .rfl (nodeAt_sustains x) fun n => ?_
  by_cases hb : n.isBoolean = true
  · rw [if_pos hb, if_pos hb]
    exact .rfl
  rw [if_neg hb, if_neg hb]
  refine Agrees.get_bind fun b₀ => ?_
  cases b₀.readings.lookup x with
  | some ne => exact .rfl
  | none =>
    have hR : Stable fun b => P b ∧ b.Encoded x := hP.and (Stable.encoded x)
    have hpush : ∀ b, P b ∧ b.Encoded x →
        ∀ c ∈ (Kind.rel .ne x (.const Scalar.zero) : Kind α).children, c < b.nodes.size := by
      rintro b ⟨-, m, hm, -⟩ c hc
      rw [List.mem_singleton.mp hc]
      exact (Array.getElem?_eq_some_iff.mp hm).1
    refine Agrees.bind .rfl ((pushNode_sustains hR hpush rfl).weaken
      fun b hb => ⟨hb.1.1, hx b hb.1.1⟩) fun ne => ?_
    -- the walk of the new node is the lowering that `reading` spells out
    have h := (hw ne x).bind_right (f := fun _ => do
      modify fun b => { b with readings := (x, ne) :: b.readings }
      pure (Reading.node ne))
    simp only [bind_assoc] at h
    exact h.weaken fun b hb => ⟨hb.2, hb.1.2⟩

/-- Two readings in turn, each walking the node it pushes, run as two `reading`s, whatever follows
them: the first operand's reading keeps the second encoded. -/
theorem readingThen_pair_agrees {walk : Nat → Bool → Lowering α Unit} (hw : WalksReadings walk)
    (a c : Nat) (tail : Reading → Reading → Lowering α β) :
    Agrees (fun b => ∀ d ∈ [a, c], b.Encoded d)
      (do let x ← readingThen walk a; let y ← readingThen walk c; tail x y)
      (do let x ← reading a; let y ← reading c; tail x y) := by
  have hP : Stable fun b : Builder α => ∀ d ∈ [a, c], b.Encoded d :=
    Stable.forall_mem (fun d => Stable.encoded d) _
  have ha : ∀ b : Builder α, (∀ d ∈ [a, c], b.Encoded d) → b.Encoded a := fun b hb => hb a (by simp)
  have hc : ∀ b : Builder α, (∀ d ∈ [a, c], b.Encoded d) → b.Encoded c := fun b hb => hb c (by simp)
  refine Agrees.bind (readingThen_agrees hw hP ha) (reading_sustains hP ha) fun _ => ?_
  exact Agrees.bind ((readingThen_agrees hw hP hc).weaken fun _ hb => hb.1)
    ((reading_sustains hP hc).weaken fun _ hb => hb.1) fun _ => .rfl

/-- With the nodes that readings push lowered as `reading` lowers them, a node whose operands are
encoded is lowered as `encodeKind` lowers it. -/
theorem encodeKindThen_agrees {walk : Nat → Bool → Lowering α Unit} (hw : WalksReadings walk)
    (id : Nat) (k : Kind α) (top : Bool) :
    Agrees (fun b => ∀ c ∈ k.children, b.Encoded c) (encodeKindThen walk id k top)
      (encodeKind id k top) := by
  cases k with
  | not a =>
    have hP : Stable fun b : Builder α => ∀ c ∈ [a], b.Encoded c :=
      Stable.forall_mem (fun c => Stable.encoded c) _
    have ha : ∀ b : Builder α, (∀ c ∈ [a], b.Encoded c) → b.Encoded a := fun b hb => hb a (by simp)
    exact Agrees.bind (readingThen_agrees hw hP ha) (reading_sustains hP ha) fun _ => .rfl
  | and a c => exact readingThen_pair_agrees hw a c _
  | or a c => exact readingThen_pair_agrees hw a c _
  | floatVar => exact .rfl
  | intVar => exact .rfl
  | view => exact .rfl
  | sum => exact .rfl
  | rel => exact .rfl
  | precedence => exact .rfl
  | noOverlap => exact .rfl
  | flow => exact .rfl
  | objective => exact .rfl

/-- The nested walk of the operands of `id` leaves them encoded. -/
theorem visitOperands_sustains {P : Builder α → Prop} (hP : Stable P) (id : Nat) (l : List Nat) :
    Sustains P (l.forM fun c => if _h : c < id then visit c false else throw (.notEncoded c))
      (fun _ b => P b ∧ ∀ c ∈ l, b.Encoded c) :=
  Sustains.forM_all (fun c => Stable.encoded c) fun c _ => by
    split
    · exact visit_sustains hP c false
    · exact .throw

/-- Cut at depth `id + 3` or more, the open walk of node `id` runs as `visit`. By strong induction
on the node: its operands precede it and are walked one level down, and the nodes that its
readings push are walked two levels down. -/
theorem walkStep_iterate_agrees (id : Nat) :
    ∀ (top : Bool) (k : Nat → Bool → Lowering α Unit) (n : Nat), id + 3 ≤ n →
      Agrees (fun _ => True) (walkStep^[n] k id top) (visit id top) := by
  induction id using Nat.strongRecOn with
  | ind id ih =>
  intro top k n hn
  obtain ⟨m, rfl⟩ : ∃ m, n = m + 1 := ⟨n - 1, by omega⟩
  rw [Function.iterate_succ_apply', walkStep, visit]
  refine Agrees.bind .rfl (nodeAt_sustains id) fun nd => ?_
  cases he : nd.encoding with
  | some e => cases e <;> exact .rfl
  | none =>
  refine Agrees.assume (fun b hb hP => hb.children id nd hP.2) fun hlt => ?_
  have hI : Stable fun b => ∃ m' : Node α, b.nodes[id]? = some m' ∧ m'.kind = nd.kind :=
    Stable.kind id nd.kind
  refine Agrees.bind ((Agrees.forM (fun c hc => ?_) fun c hc => ?_).weaken
    fun b hb => (⟨nd, hb.2, rfl⟩ : ∃ m' : Node α, b.nodes[id]? = some m' ∧ m'.kind = nd.kind))
    ((visitOperands_sustains hI id _).weaken fun b hb => ⟨nd, hb.2, rfl⟩) fun _ => ?_
  · -- an operand, one level down
    rw [dif_pos (hlt c hc)]
    exact (ih c (hlt c hc) false k m (by have := hlt c hc; omega)).weaken fun _ _ => trivial
  · rw [dif_pos (hlt c hc)]
    exact (visit_sustains hI c false).mono fun _ _ hb => hb.1
  -- the node itself, its kind kept by the walk of its operands
  unfold encode
  refine Agrees.bind .rfl (nodeAt_sustains id) fun nd' => ?_
  refine Agrees.assume (F := nd'.kind = nd.kind) (fun b _ hb => ?_) fun hk => ?_
  · obtain ⟨⟨m', hm', hk⟩, -⟩ := hb.1
    rw [hb.2, Option.some.injEq] at hm'
    exact hm' ▸ hk
  rw [hk]
  have hops : Stable fun b : Builder α => ∀ c ∈ nd.kind.children, b.Encoded c :=
    Stable.forall_mem (fun c => Stable.encoded c) _
  exact Agrees.bind ((encodeKindThen_agrees (walksReadings_iterate k (by omega)) id nd.kind top).weaken
    fun _ hb => hb.1.2) (encodeKind_sustains hops id (fun _ hb => hb) top |>.weaken fun _ hb => hb.1.2)
    fun _ => .rfl

end Lowering

/-! ### The fold and the domain with their recursion open -/

/-- Folds that agree on every member of the list agree. -/
theorem foldlM_congr_of_mem {m : Type → Type} [Monad m] {β γ : Type} {f g : β → γ → m β} :
    ∀ {l : List γ} {init : β}, (∀ y ∈ l, ∀ acc, f acc y = g acc y) →
      l.foldlM f init = l.foldlM g init
  | [], _, _ => rfl
  | y :: ys, init, h => by
    rw [List.foldlM_cons, List.foldlM_cons, h y List.mem_cons_self]
    congr 1
    funext acc
    exact foldlM_congr_of_mem fun z hz => h z (List.mem_cons_of_mem _ hz)

variable {α : Type} [Scalar α]

namespace Row

/-- One unfolding of `Row.addNode`, unguarded: a view and an affine sum add their operands through
`fold`; any other node is added as `Row.addNode` adds it, without recursion. -/
def addNodeStep (nodes : Array (Node α)) (fold : Row α → Nat → α → Except (ModelError α) (Row α))
    (r : Row α) (id : Nat) (coef : α) : Except (ModelError α) (Row α) :=
  match nodes[id]?, coef == Scalar.zero with
  | some ⟨.view _ base scale offset, _, _, _, _⟩, false =>
    fold (r.addConstant (coef * offset)) base (coef * scale)
  | some ⟨.sum vars weights offset, _, _, _, some .affine⟩, false =>
    (vars.zip weights).foldlM (fun acc t => fold acc t.1 (coef * Scalar.ofInt t.2))
      (r.addConstant (coef * offset))
  | _, _ => r.addNode nodes id coef

/-- Cut at depth `id + 1` or more, the open fold of node `id` is `Row.addNode`: the operands of a
view or a sum precede it. -/
theorem addNodeStep_iterate {nodes : Array (Node α)} (h : OperandsPrecede nodes) (id : Nat) :
    ∀ (k : Row α → Nat → α → Except (ModelError α) (Row α)) (n : Nat) (r : Row α) (coef : α),
      id < n → (addNodeStep nodes)^[n] k r id coef = r.addNode nodes id coef := by
  induction id using Nat.strongRecOn with
  | ind id ih =>
  intro k n r coef hn
  obtain ⟨m, rfl⟩ : ∃ m, n = m + 1 := ⟨n - 1, by omega⟩
  rw [Function.iterate_succ_apply', addNodeStep]
  split
  · -- a view: its base, one level down
    next _ _ _ base scale offset _ _ _ _ hnode hcoef =>
    have hb : base < id := h id _ hnode base List.mem_cons_self
    rw [addNode, hnode]
    simp only [hcoef, Bool.false_eq_true, if_false, dif_pos hb]
    exact ih base hb k m _ _ (by omega)
  · -- an affine sum: each of its operands, one level down
    next _ _ vars weights offset _ _ _ hnode hcoef =>
    rw [addNode, hnode]
    simp only [hcoef, Bool.false_eq_true, if_false]
    refine foldlM_congr_of_mem fun t ht acc => ?_
    have hb : t.1 < id := h id _ hnode t.1 (List.of_mem_zip ht).1
    rw [dif_pos hb]
    exact ih t.1 hb k m _ _ (by omega)
  · rfl

end Row

/-- One unfolding of `domainValues`, unguarded: a view takes the domain of its base through
`domain`; any other node has its domain as `domainValues` gives it, without recursion. -/
def domainValuesStep (nodes : Array (Node α)) (limit : Nat)
    (domain : Nat → Except (ModelError α) (List Int)) (id : Nat) : Except (ModelError α) (List Int) :=
  match nodes[id]? with
  | some ⟨.view _ base scale offset, _, _, false, _⟩ => do
    let ds ← domain base
    pure ((ds.map fun v => Scalar.toInt64 (scale * Scalar.ofInt v + offset)).mergeSort
      (· ≤ ·)).eraseReps
  | _ => domainValues nodes limit id

/-- Cut at depth `id + 1` or more, the open domain of node `id` is `domainValues`: the base of a
view precedes it. -/
theorem domainValuesStep_iterate {nodes : Array (Node α)} (h : OperandsPrecede nodes) (limit : Nat)
    (id : Nat) : ∀ (k : Nat → Except (ModelError α) (List Int)) (n : Nat), id < n →
      (domainValuesStep nodes limit)^[n] k id = domainValues nodes limit id := by
  induction id using Nat.strongRecOn with
  | ind id ih =>
  intro k n hn
  obtain ⟨m, rfl⟩ : ∃ m, n = m + 1 := ⟨n - 1, by omega⟩
  rw [Function.iterate_succ_apply', domainValuesStep]
  split
  · -- a view: its base, one level down
    next _ base scale offset _ _ _ hnode =>
    have hb : base < id := h id _ hnode base List.mem_cons_self
    rw [domainValues, hnode]
    simp only [Bool.false_eq_true, if_false, dif_pos hb]
    rw [ih base hb k m (by omega)]
  · rfl

namespace Builder

/-- On a sound builder the recursions of the lowering end, each as its guarded definition does.
The walk of node `id`, unguarded and walking the nodes that its readings push, never goes deeper
than `id + 3`; the fold and the domain of node `id` never go deeper than `id + 1`. Every reachable
builder is sound (`Reachable.sound`), and so is every builder that a walk passes through. -/
theorem lowering_recursions_end {b : Builder α} (hb : b.Sound) :
    (∀ (id : Nat) (top : Bool) (k : Nat → Bool → Lowering α Unit) (n : Nat), id + 3 ≤ n →
      (Lowering.walkStep^[n] k id top).run b = (Lowering.visit id top).run b) ∧
    (∀ (r : Row α) (id : Nat) (coef : α) (k : Row α → Nat → α → Except (ModelError α) (Row α))
      (n : Nat), id < n → (Row.addNodeStep b.nodes)^[n] k r id coef = r.addNode b.nodes id coef) ∧
    (∀ (limit id : Nat) (k : Nat → Except (ModelError α) (List Int)) (n : Nat), id < n →
      (domainValuesStep b.nodes limit)^[n] k id = domainValues b.nodes limit id) :=
  ⟨fun id top k n hn => Lowering.walkStep_iterate_agrees id top k n hn b hb trivial,
    fun r id coef k n hn => Row.addNodeStep_iterate hb.operandsPrecede id k n r coef hn,
    fun limit id k n hn => domainValuesStep_iterate hb.operandsPrecede limit id k n hn⟩

/-- An integer variable `x ∈ [0, 3]` and its negation, not added yet. -/
def negatedVarBuilder : Builder ERat :=
  Builder.new.execAll [.addExpr (.intVar 0 3 none), .addExpr (.not 0)]

/-- Adding `¬x` reads `x` through a new node `x ≠ 0`; the walk cut at depth four, from a
continuation that always fails, runs as `visit`. -/
theorem negatedVar_walk_ends :
    negatedVarBuilder.Sound ∧
      (Lowering.walkStep^[4] (fun _ _ => throw .duplicateObjective) 1 true).run negatedVarBuilder =
        (Lowering.visit 1 true).run negatedVarBuilder := by
  have hb : negatedVarBuilder.Sound := (Reachable.exec _ (Reachable.exec _ .new)).sound
  exact ⟨hb, (lowering_recursions_end hb).1 1 true _ 4 (by decide)⟩

end Builder

end MipLowering
