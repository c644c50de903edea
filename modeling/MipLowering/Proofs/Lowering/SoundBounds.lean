import Mathlib
import MipLowering.Proofs.Lowering.DerivedBounds
import MipLowering.Proofs.Lowering.UniqueNames
/-!
# Reachable builders carry sound bounds

A node is given the bounds it derives when it is created (`Builder.derive`), and only pinning a
sum (`set_rhs`) changes them afterwards, setting both ends of the sum to its right-hand side. The
walk of an add pushes nodes only to read operands as 0/1 values, each a relation `x ≠ 0` over
`[0, 1]`, and changes the other nodes only by recording their encodings
(`Lowering.visit_keepsNodes`). So in every builder that requests reach, a node with no pinned sum
below it carries the bounds it derives from its operands (`Builder.PinnedReachable.boundsDerived`),
and read with exact arithmetic these bounds enclose its value as soon as the sums below have finite
offsets (`Builder.reachable_bounds_enclose`). An infinite offset breaks this: over an operand
unbounded the other way, the lower end of the sum is `∞ + (-∞)`, a NaN that no value reaches
(`Builder.infiniteOffset_lower_nan`).

Such an offset is not whole, so it marks the sum fractional, and with it every node above. Pins
change bounds only, so in every reachable builder a node that is never fractional, a Boolean one
among them, folds through views and sums of finite scales and offsets only
(`Builder.Reachable.wholeFolds`), and logic reads every node finitely
(`Builder.Reachable.readsFinitely`).

## Main definitions

* `MipLowering.Builder.readingNode` — the node `x ≠ 0` that reads node `x`.
* `MipLowering.Builder.KeepsNodes` — one builder keeps the nodes of another, up to encodings, and
  adds readings only.
* `MipLowering.Builder.PinnedReachable` — reachable builders, with the sums pinned on the way.
* `MipLowering.Builder.BoundsDerived` — every node with no pinned node below it carries the bounds
  it derives.
* `MipLowering.Builder.WholeFolds` — every node that is never fractional has operands that are
  never fractional, and finite scales and offsets.

## Main results

* `MipLowering.Lowering.visit_keepsNodes` — a walk keeps the nodes and adds readings only.
* `MipLowering.Builder.PinnedReachable.boundsDerived` — the bounds of reachable builders.
* `MipLowering.Builder.reachable_bounds_enclose` — they enclose the values of the nodes.
* `MipLowering.Builder.Reachable.readsFinitely` — logic reads every node of a reachable builder
  with finite scales and offsets.
-/

namespace MipLowering

namespace Builder

section Arena

variable {α : Type} {b b' : Builder α}

/-- `b'` has every node of `b`, perhaps encoded since. -/
def KeepsOld (b b' : Builder α) : Prop :=
  ∀ (i : Nat) (n : Node α), b.nodes[i]? = some n → ∃ e, b'.nodes[i]? = some { n with encoding := e }

namespace KeepsOld

theorem keepsBoundsAt (h : KeepsOld b b') (c : Nat) : KeepsBoundsAt b b' c := by
  intro m hm
  obtain ⟨e, he⟩ := h c m hm
  exact ⟨_, he, rfl, rfl, rfl⟩

theorem descendant (h : KeepsOld b b') {i j : Nat} (hd : Descendant b.nodes i j) :
    Descendant b'.nodes i j :=
  hd.mono fun i n hn => by
    obtain ⟨e, he⟩ := h i n hn
    exact ⟨_, he, rfl⟩

theorem push (b : Builder α) (n : Node α) : KeepsOld b (b.pushNode n).2 := by
  intro i m hm
  have hlt := (Array.getElem?_eq_some_iff.mp hm).1
  exact ⟨m.encoding, by simpa [Builder.pushNode, Array.getElem?_push, Nat.ne_of_lt hlt] using hm⟩

end KeepsOld

end Arena

variable {α : Type} [Scalar α] {b b' b'' : Builder α}

/-- The node `x ≠ 0` that reads node `x` as a 0/1 value, as the walk of an add pushes it. -/
def readingNode (x : Nat) : Node α :=
  ⟨.rel .ne x (.const Scalar.zero), Scalar.zero, Scalar.one, false, none⟩

/-- `b'` has every node of `b`, perhaps encoded since, and every node beyond them is the reading
of a node, perhaps encoded. -/
structure KeepsNodes (b b' : Builder α) : Prop where
  old : KeepsOld b b'
  new : ∀ (i : Nat) (n : Node α), b.nodes.size ≤ i → b'.nodes[i]? = some n →
    ∃ (x : Nat) (e : Option Encoding), n = { (readingNode x : Node α) with encoding := e }

namespace KeepsNodes

theorem of_nodes (h : b'.nodes = b.nodes) : b.KeepsNodes b' := by
  refine ⟨fun i n hn => ⟨n.encoding, by simpa [h] using hn⟩, fun i n hi hn => ?_⟩
  rw [h] at hn
  have := (Array.getElem?_eq_some_iff.mp hn).1
  omega

theorem refl (b : Builder α) : b.KeepsNodes b := of_nodes rfl

theorem trans (h : b.KeepsNodes b') (h' : b'.KeepsNodes b'') : b.KeepsNodes b'' := by
  refine ⟨fun i n hn => ?_, fun i n hi hn => ?_⟩
  · obtain ⟨e, he⟩ := h.old i n hn
    obtain ⟨e', he'⟩ := h'.old i _ he
    exact ⟨e', he'⟩
  · -- a node beyond `b` was pushed from `b` to `b'`, or after `b'`
    by_cases hi' : b'.nodes.size ≤ i
    · exact h'.new i n hi' hn
    · have hm := Array.getElem?_eq_getElem (Nat.lt_of_not_le hi')
      obtain ⟨x, e, hx⟩ := h.new i _ hi hm
      obtain ⟨e', he'⟩ := h'.old i _ hm
      rw [hn, Option.some.injEq, hx] at he'
      exact ⟨x, e', he'⟩

/-- Recording the encoding of a node. -/
theorem setEncoding (id : Nat) (e : Encoding) :
    b.KeepsNodes { b with nodes := b.nodes.modify id (fun n => { n with encoding := some e }),
                          encoded := b.encoded ++ [id] } := by
  refine ⟨fun i n hn => ?_, fun i n hi hn => ?_⟩
  · by_cases hid : id = i
    · subst hid
      exact ⟨some e, by simp [Array.getElem?_modify, hn]⟩
    · exact ⟨n.encoding, by simpa [Array.getElem?_modify, hid] using hn⟩
  · -- recording an encoding keeps the size of the arena
    rw [Array.getElem?_eq_none (by simpa using hi)] at hn
    cases hn

/-- Pushing the reading of a node. -/
theorem pushReading (x : Nat) : b.KeepsNodes (b.pushNode (readingNode x)).2 := by
  refine ⟨.push b _, fun i n hi hn => ⟨x, none, ?_⟩⟩
  change (b.nodes.push (readingNode x))[i]? = some n at hn
  rw [Array.getElem?_push] at hn
  split at hn
  · cases hn
    rfl
  · rw [Array.getElem?_eq_none hi] at hn
    cases hn

end KeepsNodes

end Builder

namespace Lowering

open Builder

variable {α β γ : Type} [Scalar α]

/-- Run from any builder, a step that succeeds keeps its nodes, up to encodings, and adds readings
only. -/
def KeepsNodes (x : Lowering α β) : Prop := ∀ b a b', x.run b = .ok a b' → b.KeepsNodes b'

namespace KeepsNodes

variable {x : Lowering α β}

theorem bind {f : β → Lowering α γ} (hx : KeepsNodes x) (hf : ∀ a, KeepsNodes (f a)) :
    KeepsNodes (x >>= f) := by
  intro b c b' h
  obtain ⟨a, b₁, h₁, h₂⟩ := run_bind_ok h
  exact (hx b a b₁ h₁).trans (hf a b₁ c b' h₂)

theorem get_bind {f : Builder α → Lowering α β} (hf : ∀ b₀, KeepsNodes (f b₀)) :
    KeepsNodes (MonadState.get >>= f) :=
  fun b a b' h => hf b b a b' h

end KeepsNodes

/-- A step that keeps the arena as it is. -/
theorem Appends.keepsNodes {x : Lowering α β} {S : List ColumnName} (hx : Appends x S) :
    KeepsNodes x :=
  fun b a b' h => .of_nodes (hx b a b' h).1

theorem KeepsNodes.forM {f : β → Lowering α PUnit} {l : List β} (hf : ∀ y ∈ l, KeepsNodes (f y)) :
    KeepsNodes (l.forM f) := by
  induction l with
  | nil => exact Appends.keepsNodes (Appends.pure _)
  | cons y ys ih =>
    show KeepsNodes (f y >>= fun _ => ys.forM f)
    exact (hf y List.mem_cons_self).bind fun _ => ih fun z hz => hf z (List.mem_cons_of_mem _ hz)

theorem setEncoding_keepsNodes (id : Nat) (e : Encoding) :
    KeepsNodes (setEncoding id e : Lowering α Unit) := by
  intro b u b' h
  rw [setEncoding_run] at h
  cases h
  exact .setEncoding id e

theorem pushReading_keepsNodes (x : Nat) :
    KeepsNodes (pushNode (readingNode x) : Lowering α Nat) := by
  intro b n b' h
  cases h
  exact .pushReading x

/-- The 0/1 reading of an operand: the operand itself, a cached reading, or a new reading node,
pushed and then encoded. -/
theorem reading_keepsNodes (id : Nat) : KeepsNodes (reading id : Lowering α Reading) := by
  unfold reading
  refine (Appends.keepsNodes (nodeAt_appends id)).bind fun n => ?_
  split
  · exact Appends.keepsNodes (Appends.pure _)
  refine KeepsNodes.get_bind fun _ => ?_
  split
  · exact Appends.keepsNodes (Appends.pure _)
  exact (pushReading_keepsNodes id).bind fun ne =>
    (Appends.keepsNodes (difference_appends _ _ _)).bind fun _ =>
      (Appends.keepsNodes (encodeRel_appends _ _ _ _)).bind fun e =>
        (setEncoding_keepsNodes ne e).bind fun _ =>
          Appends.keepsNodes ((Appends.modify fun _ => by exact ⟨rfl, rfl, rfl⟩).nil_bind fun _ =>
            Appends.pure _)

theorem encodeNot_keepsNodes (id a : Nat) (top : Bool) :
    KeepsNodes (encodeNot id a top : Lowering α Encoding) := by
  unfold encodeNot
  refine (reading_keepsNodes a).bind fun x => ?_
  cases top with
  | true =>
    exact Appends.keepsNodes ((readingRow_appends _ _ _ _ _).nil_bind fun _ =>
      (post_appends _).nil_bind fun _ => Appends.pure _)
  | false =>
    exact Appends.keepsNodes ((indicator_appends _ _).single_bind fun _ =>
      (readingRow_appends _ _ _ _ _).nil_bind fun _ => (post_appends _).nil_bind fun _ =>
        Appends.pure _)

theorem encodeAnd_keepsNodes (id a c : Nat) (top : Bool) :
    KeepsNodes (encodeAnd id a c top : Lowering α Encoding) := by
  unfold encodeAnd
  refine (reading_keepsNodes a).bind fun x => (reading_keepsNodes c).bind fun y => ?_
  cases top with
  | true =>
    exact Appends.keepsNodes ((readingRow_appends _ _ _ _ _).nil_bind fun _ =>
      (post_appends _).nil_bind fun _ => (readingRow_appends _ _ _ _ _).nil_bind fun _ =>
        (post_appends _).nil_bind fun _ => Appends.pure _)
  | false =>
    exact Appends.keepsNodes ((indicator_appends _ _).single_bind fun _ =>
      (postAnd_appends _ _ _).nil_bind fun _ => Appends.pure _)

theorem encodeOr_keepsNodes (id a c : Nat) (top : Bool) :
    KeepsNodes (encodeOr id a c top : Lowering α Encoding) := by
  unfold encodeOr
  refine (reading_keepsNodes a).bind fun x => (reading_keepsNodes c).bind fun y => ?_
  cases top with
  | true =>
    exact Appends.keepsNodes ((readingRow_appends _ _ _ _ _).nil_bind fun _ =>
      (post_appends _).nil_bind fun _ => Appends.pure _)
  | false =>
    exact Appends.keepsNodes ((indicator_appends _ _).single_bind fun _ =>
      (postOr_appends _ _ _).nil_bind fun _ => Appends.pure _)

/-- Lowering a node of any kind: only logic reads its operands, and only readings are pushed. -/
theorem encodeKind_keepsNodes (id : Nat) (k : Kind α) (top : Bool) :
    KeepsNodes (encodeKind id k top) := by
  cases k with
  | floatVar lower upper =>
    exact Appends.keepsNodes (Appends.map (addColumn_appends (.var id) _ _ _))
  | intVar lower upper values =>
    exact Appends.keepsNodes (Appends.map (encodeIntVar_appends id lower upper values))
  | view => exact Appends.keepsNodes (Appends.pure _)
  | sum => exact Appends.keepsNodes (encodeSum_appends id top)
  | rel r lhs rhs =>
    exact Appends.keepsNodes ((difference_appends _ _ _).nil_bind fun _ => encodeRel_appends _ _ _ _)
  | precedence => exact Appends.keepsNodes (encodePrecedence_appends _ _ _ _ _)
  | noOverlap => exact Appends.keepsNodes (encodeNoOverlap_appends _ _ _ _ _)
  | not a => exact encodeNot_keepsNodes id a top
  | and a c => exact encodeAnd_keepsNodes id a c top
  | or a c => exact encodeOr_keepsNodes id a c top
  | flow kind vars values lb ub =>
    intro b e b' h
    dsimp only [encodeKind] at h
    split at h
    · obtain ⟨_, _, hthrow, -⟩ := run_bind_ok h
      cases hthrow
    · obtain ⟨u, b₁, hf, h⟩ := run_bind_ok h
      cases h
      obtain ⟨ds, -, hn, -⟩ := encodeFlow_run_ok hf
      exact .of_nodes hn
  | objective sense expr =>
    intro b e b' h
    exact .of_nodes (encodeObjective_run_ok h).2.2.1

theorem encode_keepsNodes (id : Nat) (top : Bool) : KeepsNodes (encode id top : Lowering α Unit) := by
  unfold encode
  exact (Appends.keepsNodes (nodeAt_appends id)).bind fun n =>
    (encodeKind_keepsNodes id n.kind top).bind fun e => setEncoding_keepsNodes id e

/-- A walk from a node keeps the nodes of the arena, up to encodings, and adds readings only. By
strong induction on the node: its operands, walked first, precede it. -/
theorem visit_keepsNodes (id : Nat) : ∀ top, KeepsNodes (visit id top : Lowering α Unit) := by
  induction id using Nat.strongRecOn with
  | ind id ih =>
  intro top
  rw [visit]
  refine (Appends.keepsNodes (nodeAt_appends id)).bind fun n => ?_
  split
  · -- encoded as a column: at top level the indicator of a relation is forced on
    split
    · exact Appends.keepsNodes (modifyColumn_appends _ fun _ => rfl)
    · exact Appends.keepsNodes (Appends.pure _)
  · exact Appends.keepsNodes (Appends.pure _)
  · refine (KeepsNodes.forM fun c _ => ?_).bind fun _ => encode_keepsNodes id top
    split
    · next hc => exact ih c hc false
    · intro _ _ _ h
      cases h

end Lowering

namespace Builder

variable {α : Type} [Scalar α] {b b' : Builder α} {pins : List Nat}

/-! ### What requests do to the arena -/

/-- An add keeps the nodes of an idle builder, up to encodings, and adds readings only: a walk
that succeeds does, and one that fails is rolled back. -/
theorem keepsNodes_addRun (hb : b.Idle) (id : Nat) : b.KeepsNodes (b.addRun id).2 := by
  unfold Builder.addRun
  split
  · exact .refl b
  next hinit =>
  split
  · exact .refl b
  next n hnode =>
  split
  · next b' hrun => exact (Lowering.visit_keepsNodes id true b () b' hrun).trans (.of_nodes rfl)
  · next e b' hrun =>
    have hfail : (b.addRun id).1 = .error e := by simp [Builder.addRun, hinit, hnode, hrun]
    have hback := addRun_error hb hfail
    simp only [Builder.addRun, hinit, hnode, hrun, Bool.false_eq_true, if_false] at hback
    rw [hback]
    exact .refl b

/-! ### Derived bounds along requests -/

/-- Every node of `b` with no pinned node below it carries the bounds it derives. -/
def BoundsDerived (b : Builder α) (pins : List Nat) : Prop :=
  ∀ id n, b.nodes[id]? = some n → (∀ j, Descendant b.nodes id j → j ∉ pins) →
    b.DerivedFrom n.kind n.lower n.upper n.continuous

namespace BoundsDerived

/-- Derived bounds carry over to an arena that keeps every node of `b` up to its encoding, as soon
as the nodes beyond them carry theirs. -/
theorem of_keepsOld (h : b.BoundsDerived pins) (hold : KeepsOld b b')
    (hnew : ∀ id n, b.nodes.size ≤ id → b'.nodes[id]? = some n →
      b'.DerivedFrom n.kind n.lower n.upper n.continuous) :
    b'.BoundsDerived pins := by
  intro id n hn hpins
  by_cases hid : b.nodes.size ≤ id
  · exact hnew id n hid hn
  · have hm := Array.getElem?_eq_getElem (Nat.lt_of_not_le hid)
    obtain ⟨e, he⟩ := hold id _ hm
    rw [hn, Option.some.injEq] at he
    subst he
    -- the paths below the node in `b` are paths in `b'`, so none meets a pin
    have hd := h id _ hm fun j hj => hpins j (hold.descendant hj)
    exact hd.congr fun x _ => hold.keepsBoundsAt x

theorem of_keepsNodes (h : b.BoundsDerived pins) (hk : b.KeepsNodes b') : b'.BoundsDerived pins :=
  h.of_keepsOld hk.old fun id n hid hn => by
    obtain ⟨x, e, rfl⟩ := hk.new id n hid hn
    exact ⟨rfl, rfl, rfl⟩

/-- Appending a node with the bounds it derives. -/
theorem push_derived (h : b.BoundsDerived pins) {k₀ k : Kind α} {lo hi : α} {c : Bool}
    (hd : b.derive k₀ = .ok (k, lo, hi, c)) :
    (b.pushNode ⟨k, lo, hi, c, none⟩).2.BoundsDerived pins := by
  refine h.of_keepsOld (.push b _) fun id n hid hn => ?_
  -- the one node beyond `b` is the new one
  change (b.nodes.push _)[id]? = some n at hn
  rw [Array.getElem?_push] at hn
  split at hn
  · cases hn
    exact (derive_derivedFrom hd).congr fun x _ => (KeepsOld.push b _).keepsBoundsAt x
  · rw [Array.getElem?_eq_none hid] at hn
    cases hn

/-- Pinning sum `id` keeps the derived bounds of every node with neither `id` nor a pin below it. -/
theorem setRhs (h : b.BoundsDerived pins) {id : Nat} {k : α} (hs : b.setRhs id k = .ok b') :
    b'.BoundsDerived (id :: pins) := by
  obtain ⟨n, hn, -, rfl⟩ := setRhs_ok hs
  have hget : ∀ i, i ≠ id →
      (b.nodes.setIfInBounds id { n with lower := k, upper := k })[i]? = b.nodes[i]? :=
    fun i hi => by rw [Array.getElem?_setIfInBounds, if_neg (Ne.symm hi)]
  -- the pinned sum keeps its kind, so every path below a node is kept
  have hkinds : ∀ (i : Nat) (m : Node α), b.nodes[i]? = some m → ∃ m' : Node α,
      (b.nodes.setIfInBounds id { n with lower := k, upper := k })[i]? = some m' ∧
        m'.kind = m.kind := fun _ _ hm => (pin_keeps hn k hm).imp fun _ h => ⟨h.1, h.2.1⟩
  intro i m hm hpins
  have hi : i ≠ id := fun hi => hpins id (hi ▸ .refl i) List.mem_cons_self
  have hmb : b.nodes[i]? = some m := by
    rw [← hget i hi]
    exact hm
  have hd := h i m hmb fun j hj hjp => hpins j (hj.mono hkinds) (List.mem_cons_of_mem _ hjp)
  refine hd.congr fun x hx m' hm' => ⟨m', ?_, rfl, rfl, rfl⟩
  -- an operand lies below the node, so it is not the pinned sum
  have hxid : x ≠ id := fun hxid =>
    hpins x (Descendant.of_child hm hx) (hxid ▸ List.mem_cons_self)
  show (b.nodes.setIfInBounds id _)[x]? = some m'
  rw [hget x hxid, hm']

theorem settle {x : Except (ModelError α) (Builder α)} (h : b.BoundsDerived pins)
    (hx : ∀ b', x = .ok b' → b'.BoundsDerived pins) : (b.settle x).2.BoundsDerived pins := by
  cases x with
  | ok b' => exact hx b' rfl
  | error e => exact h

end BoundsDerived

/-- The sums a request pins: the node of a set_rhs request that succeeds. -/
def Request.pinned (b : Builder α) : Request α → List Nat
  | .setRhs id k => if (b.setRhs id k).isOk then [id] else []
  | _ => []

/-- Every request keeps the bounds derived below the nodes that no pin reaches, the pin of a
set_rhs request that succeeds added. -/
theorem BoundsDerived.exec (h : b.BoundsDerived pins) (hb : b.Idle) (r : Request α) :
    (b.exec r).2.BoundsDerived (r.pinned b ++ pins) := by
  cases r with
  | add id => exact h.of_keepsNodes (keepsNodes_addRun hb id)
  | addExpr k =>
    refine h.settle fun b' hb' => ?_
    obtain ⟨_, hok⟩ := map_snd_eq_ok hb'
    obtain ⟨k', lo, hi, c, hd, hr⟩ := addExpr_ok hok
    obtain rfl : b' = _ := congrArg Prod.snd hr
    exact h.push_derived hd
  | addIntArray xs =>
    refine h.settle fun b' hb' => ?_
    obtain ⟨_, hok⟩ := map_snd_eq_ok hb'
    rw [addIntArray_ok hok]
    exact h.of_keepsNodes (.of_nodes rfl)
  | addVarArray ids =>
    refine h.settle fun b' hb' => ?_
    obtain ⟨_, hok⟩ := map_snd_eq_ok hb'
    rw [addVarArray_ok hok]
    exact h.of_keepsNodes (.of_nodes rfl)
  | setRhs id k =>
    show (b.settle (b.setRhs id k)).2.BoundsDerived
      ((if (b.setRhs id k).isOk then [id] else []) ++ pins)
    cases hs : b.setRhs id k with
    | ok b' => exact h.setRhs hs
    | error e => exact h
  | initialise =>
    refine h.settle fun b' hb' => ?_
    rw [initialise_ok hb']
    exact h.of_keepsNodes (.of_nodes rfl)
  | initialiseWith ds =>
    refine h.settle fun b' hb' => ?_
    obtain ⟨-, cols, rfl⟩ := initialiseWith_ok hb'
    exact h.of_keepsNodes (.of_nodes rfl)

/-- The builders that requests reach from a new builder, or from one made with a validated
configuration, with the sums that set_rhs requests pinned on the way. -/
inductive PinnedReachable : Builder α → List Nat → Prop
  | new : PinnedReachable Builder.new []
  | withConfig {c : LoweringConfig α} {b : Builder α} : Builder.withConfig c = .ok b →
      PinnedReachable b []
  | exec {b : Builder α} {pins : List Nat} (r : Request α) : PinnedReachable b pins →
      PinnedReachable (b.exec r).2 (r.pinned b ++ pins)

namespace PinnedReachable

theorem reachable (h : PinnedReachable b pins) : b.Reachable := by
  induction h with
  | new => exact .new
  | withConfig hc => exact .withConfig hc
  | exec r _ ih => exact .exec r ih

/-- In every builder that requests reach, a node with no pinned sum below it carries the bounds
it derives from its operands. -/
theorem boundsDerived (h : PinnedReachable b pins) : b.BoundsDerived pins := by
  induction h with
  | new =>
    intro id n hn
    simp [Builder.new] at hn
  | withConfig hc =>
    simp only [Builder.withConfig, bind, Except.bind, pure, Except.pure] at hc
    split at hc
    · cases hc
    · cases hc
      intro id n hn
      simp at hn
  | exec r hr ih => exact ih.exec hr.reachable.idle r

end PinnedReachable

end Builder

/-! ### Exact bounds of reachable builders -/

namespace ERat

theorem le_of_fin_le_le {p q : ℚ} {y : ERat} (h₁ : fin p ≤ y) (h₂ : y ≤ fin q) : p ≤ q := by
  cases y with
  | fin r => exact (fin_le_fin.1 h₁).trans (fin_le_fin.1 h₂)
  | nan => exact absurd h₁ (le_nan _)
  | negInf => exact absurd h₁ (fin_le_negInf _)
  | posInf => exact absurd h₂ (posInf_le_fin _)

theorem add_fin_zero (y : ERat) : y + fin 0 = y := by
  cases y with
  | fin q => rw [fin_add_fin, add_zero]
  | _ => rfl

theorem floor_intCast_add_half (z : ℤ) : ((z : ℚ) + 1 / 2).floor = z := by
  show ⌊(z : ℚ) + 1 / 2⌋ = z
  rw [Int.floor_intCast_add]
  norm_num

/-- A whole value rounds to itself. -/
theorem roundHalfAway_intCast (z : ℤ) : roundHalfAway (z : ℚ) = z := by
  unfold roundHalfAway
  split
  · exact floor_intCast_add_half z
  · have h := floor_intCast_add_half (-z)
    push_cast at h
    rw [h, neg_neg]

end ERat

open ERat

/-- Bounds within `[0, 1]` that admit whole values only admit `0` and `1` only. -/
theorem Encloses.eq_zero_or_one {lo hi : ERat} {x : ℚ} (h : Encloses lo hi false x)
    (hlo : Scalar.zero ≤ lo) (hhi : hi ≤ Scalar.one) : x = 0 ∨ x = 1 := by
  obtain ⟨z, rfl⟩ := h.2.2 rfl
  have h0 : (0 : ℚ) ≤ z := le_of_fin_le_le hlo h.1
  have h1 : (z : ℚ) ≤ 1 := le_of_fin_le_le h.2.1 hhi
  have hz : z = 0 ∨ z = 1 := by
    have : 0 ≤ z := by exact_mod_cast h0
    have : z ≤ 1 := by exact_mod_cast h1
    omega
  rcases hz with rfl | rfl <;> simp

/-- A column with the bounds of a node, integral unless the node is fractional, admits with no
tolerance every value that the bounds enclose. -/
theorem Encloses.admits {lo hi : ERat} {c : Bool} {x : ℚ} (h : Encloses lo hi c x) (name : String) :
    Column.admits ⟨name, if c then .continuous else .integer, lo, hi, none⟩ (fin x) Scalar.zero =
      true := by
  have hlo : lo - Scalar.zero ≤ fin x := by
    rw [zero_eq_fin, sub_fin_le_fin, add_zero]
    exact h.1
  have hhi : fin x ≤ hi + Scalar.zero := by
    rw [zero_eq_fin, add_fin_zero]
    exact h.2.1
  simp only [Column.admits, hlo, hhi, decide_true, Bool.true_and]
  cases c with
  | true => rfl
  | false =>
    -- a whole value is its own rounding
    obtain ⟨z, rfl⟩ := h.2.2 rfl
    have hround : Scalar.round (fin (z : ℚ)) = fin (z : ℚ) := by
      show fin ((roundHalfAway (z : ℚ) : ℤ) : ℚ) = _
      rw [roundHalfAway_intCast]
    have habs : Scalar.abs (fin 0) = fin 0 := by
      show fin (if (0 : ℚ) ≤ 0 then 0 else -0) = _
      simp
    simp [hround, Column.isIntegral, zero_eq_fin, habs]

namespace Lowering

/-- A column like node `like` has the bounds of the node, and is integral unless the node is
fractional. -/
theorem columnLike_run_ok {α : Type} [Scalar α] {b b' : Builder α} {like : Nat} {pfx : String}
    {v : Nat} (h : (columnLike like pfx).run b = .ok v b') :
    ∃ n, b.nodes[like]? = some n ∧ b'.model.columns[v]? =
      some ⟨pfx ++ toString like, if n.continuous then .continuous else .integer, n.lower, n.upper,
        none⟩ := by
  unfold columnLike at h
  obtain ⟨n, b₁, hn, h⟩ := run_bind_ok h
  rw [nodeAt_run] at hn
  split at hn
  · next hm =>
    cases hn
    rw [addColumn_run] at h
    cases h
    refine ⟨n, hm, ?_⟩
    cases hc : n.continuous <;> simp [FlatModel.addColumn]
  · cases hn

end Lowering

namespace Builder

/-- Derived bounds and integrality are sound. In a builder that requests reach, take a node with
no pinned sum below it and whose sums below have finite offsets, and values `V` of the nodes below
it: the variables within their domains, every other node the value its operands give it. Then the
value of the node lies within its bounds, and is whole unless the node is marked fractional; a
boolean node takes `0` or `1`; and the column that lowering makes like the node, for a nested sum
or an objective, has its bounds and admits its value with no tolerance. -/
theorem reachable_bounds_enclose {b : Builder ERat} {pins : List Nat} (hb : PinnedReachable b pins)
    {id : Nat} {n : Node ERat} (hn : b.nodes[id]? = some n)
    (hpins : ∀ j, Descendant b.nodes id j → j ∉ pins)
    (hoff : ∀ j m, Descendant b.nodes id j → b.nodes[j]? = some m → m.kind.OffsetFinite)
    (V : Nat → ℚ) (hV : ∀ j m, Descendant b.nodes id j → b.nodes[j]? = some m →
      m.kind.Takes V (V j)) :
    Encloses n.lower n.upper n.continuous (V id) ∧ (n.isBoolean = true → V id = 0 ∨ V id = 1) ∧
      ∀ (pfx : String) (c : Nat) (b' : Builder ERat), (Lowering.columnLike id pfx).run b = .ok c b' →
        b'.model.columns[c]? = some ⟨pfx ++ toString id,
          if n.continuous then .continuous else .integer, n.lower, n.upper, none⟩ ∧
        Column.admits ⟨pfx ++ toString id, if n.continuous then .continuous else .integer,
          n.lower, n.upper, none⟩ (fin (V id)) Scalar.zero = true := by
  -- below the node every node carries the bounds it derives, as no pin lies below
  have hbelow : b.DerivedBelow V id :=
    ⟨fun j m hj hm => hb.boundsDerived j m hm fun i hi => hpins i (hj.trans hi), hoff, hV⟩
  have henc := encloses_of_derivedBelow hb.reachable.sound.children V id n hn hbelow
  refine ⟨henc, fun hbool => ?_, fun pfx c b' hrun => ?_⟩
  · simp only [Node.isBoolean, Bool.and_eq_true, Bool.not_eq_true', decide_eq_true_eq] at hbool
    obtain ⟨⟨hc, hlo⟩, hhi⟩ := hbool
    rw [hc] at henc
    exact henc.eq_zero_or_one hlo hhi
  · obtain ⟨m, hm, hcol⟩ := Lowering.columnLike_run_ok hrun
    rw [hn, Option.some.injEq] at hm
    subst hm
    exact ⟨hcol, henc.admits _⟩

/-- An integer variable `x ∈ [0, 3]` and the sum `2x + 1` over it. -/
def affineSumBuilder : Builder ERat :=
  Builder.new.execAll [.addExpr (.intVar 0 3 none), .addExpr (.sum [0] [2] (.fin 1))]

/-- At `x = 3` the sum `2x + 1` takes `7`, within its bounds `[1, 7]`, and its column admits it. -/
theorem affineSum_bounds_enclose :
    PinnedReachable affineSumBuilder [] ∧
      affineSumBuilder.nodes[1]? = some ⟨.sum [0] [2] (fin 1), fin 1, fin 7, false, none⟩ ∧
      Encloses (fin 1) (fin 7) false 7 ∧
      ∀ (pfx : String) (c : Nat) (b' : Builder ERat),
        (Lowering.columnLike 1 pfx).run affineSumBuilder = .ok c b' →
          Column.admits ⟨pfx ++ toString 1, .integer, fin 1, fin 7, none⟩ (fin 7) Scalar.zero =
            true := by
  have hnodes : affineSumBuilder.nodes = #[⟨.intVar 0 3 none, fin 0, fin 3, false, none⟩,
      ⟨.sum [0] [2] (fin 1), fin 1, fin 7, false, none⟩] := by
    with_unfolding_all rfl
  have hreach : PinnedReachable affineSumBuilder [] := .exec _ (.exec _ .new)
  have hn : affineSumBuilder.nodes[1]? = some ⟨.sum [0] [2] (fin 1), fin 1, fin 7, false, none⟩ := by
    rw [hnodes]
    rfl
  -- the variable takes `3`, the sum `2 · 3 + 1`
  have hV : ∀ j m, Descendant affineSumBuilder.nodes 1 j → affineSumBuilder.nodes[j]? = some m →
      m.kind.Takes (fun j => if j = 0 then 3 else 7) (if j = 0 then 3 else 7) := by
    intro j m _ hm
    rw [hnodes] at hm
    rcases j with _ | _ | j
    · cases hm
      exact ⟨3, by norm_num, by norm_num⟩
    · cases hm
      norm_num [Kind.Takes]
    · simp at hm
  have hoff : ∀ j m, Descendant affineSumBuilder.nodes 1 j → affineSumBuilder.nodes[j]? = some m →
      m.kind.OffsetFinite := by
    intro j m _ hm
    rw [hnodes] at hm
    rcases j with _ | _ | j
    · cases hm
      trivial
    · cases hm
      rfl
    · simp at hm
  have h := reachable_bounds_enclose hreach hn (fun _ _ => List.not_mem_nil) hoff _ hV
  exact ⟨hreach, hn, h.1, fun pfx c b' hrun => (h.2.2 pfx c b' hrun).2⟩

/-- A real variable `x ∈ [-∞, 0]` and the sum `x + ∞` over it. -/
def infiniteOffsetBuilder : Builder ERat :=
  Builder.new.execAll [.addExpr (.floatVar .negInf (.fin 0)), .addExpr (.sum [0] [1] .posInf)]

/-- An infinite offset breaks the bounds. The sum `x + ∞` over `x ∈ [-∞, 0]`, admitted with no
pin, gets the lower end `∞ + (-∞)`, a NaN that no value lies above. -/
theorem infiniteOffset_lower_nan :
    PinnedReachable infiniteOffsetBuilder [] ∧ ∃ n : Node ERat,
      infiniteOffsetBuilder.nodes[1]? = some n ∧ n.kind = .sum [0] [1] .posInf ∧
        ∀ v : ERat, ¬n.lower ≤ v := by
  have hnodes : infiniteOffsetBuilder.nodes = #[⟨.floatVar .negInf (fin 0), .negInf, fin 0, true,
      none⟩, ⟨.sum [0] [1] .posInf, .nan, .posInf, true, none⟩] := by
    with_unfolding_all rfl
  refine ⟨.exec _ (.exec _ .new), _, by rw [hnodes]; rfl, rfl, nan_le⟩

end Builder

/-! ### Whole nodes fold finitely -/

section WholeFolds

variable {α : Type} [Scalar α]

/-- What a node that is never fractional asks of its operands, as `derive` marks it: a view
scales and shifts by finite numbers a base that is never fractional, and a sum adds a whole
offset to terms that are never fractional. An infinite or NaN offset is not whole. -/
def Kind.WholeOver (nodes : Array (Node α)) : Kind α → Prop
  | .view _ base scale offset => Scalar.isFinite scale = true ∧ Scalar.isFinite offset = true ∧
      ∃ m, nodes[base]? = some m ∧ m.continuous = false
  | .sum vars weights offset => Scalar.isWhole offset = true ∧
      ∀ t ∈ vars.zip weights, ∃ m, nodes[t.1]? = some m ∧ m.continuous = false
  | _ => True

/-- What a kind asks of its operands holds in any arena that keeps them with their flags. -/
theorem Kind.WholeOver.mono {nodes nodes' : Array (Node α)} {k : Kind α} (h : k.WholeOver nodes)
    (hkeep : ∀ (i : Nat) (m : Node α), nodes[i]? = some m →
      ∃ m' : Node α, nodes'[i]? = some m' ∧ m'.continuous = m.continuous) :
    k.WholeOver nodes' := by
  cases k with
  | view sh base scale offset =>
    obtain ⟨hs, ho, m, hm, hc⟩ := h
    obtain ⟨m', hm', hc'⟩ := hkeep base m hm
    exact ⟨hs, ho, m', hm', hc'.trans hc⟩
  | sum vars weights offset =>
    refine ⟨h.1, fun t ht => ?_⟩
    obtain ⟨m, hm, hc⟩ := h.2 t ht
    obtain ⟨m', hm', hc'⟩ := hkeep t.1 m hm
    exact ⟨m', hm', hc'.trans hc⟩
  | _ => trivial

namespace Builder

variable {b b' : Builder α}

/-- Every node that is never fractional has the operands its kind asks for. -/
def WholeFolds (b : Builder α) : Prop :=
  ∀ (id : Nat) (n : Node α), b.nodes[id]? = some n → n.continuous = false →
    n.kind.WholeOver b.nodes

omit [Scalar α] in
theorem getElem?_of_node {id : Nat} {n : Node α} (h : b.node id = .ok n) :
    b.nodes[id]? = some n := by
  unfold node at h
  split at h
  · next hm =>
    cases h
    exact hm
  · cases h

/-- The fractional flag of a sum's fold only grows: a whole result comes from a whole start and
whole terms that are there. -/
theorem foldlM_sumStep_whole : ∀ (terms : List (Nat × Int)) (acc r : α × α × Bool),
    terms.foldlM (sumStep b) acc = .ok r → r.2.2 = false →
      acc.2.2 = false ∧ ∀ t ∈ terms, ∃ m, b.node t.1 = .ok m ∧ m.continuous = false
  | [], acc, r, h, hr => by
    cases h
    exact ⟨hr, fun t ht => absurd ht List.not_mem_nil⟩
  | t :: ts, acc, r, h, hr => by
    rw [List.foldlM_cons] at h
    obtain ⟨acc', hs, h⟩ := except_bind_ok h
    obtain ⟨m, hm, rfl⟩ := sumStep_ok hs
    obtain ⟨hacc, hts⟩ := foldlM_sumStep_whole ts _ r h hr
    rw [Bool.or_eq_false_iff] at hacc
    refine ⟨hacc.1, fun t' ht' => ?_⟩
    rcases List.mem_cons.1 ht' with rfl | ht'
    · exact ⟨m, hm, hacc.2⟩
    · exact hts t' ht'

/-- A kind that `derive` marks whole has the operands it asks for. -/
theorem derivedFrom_wholeOver {k : Kind α} {lo hi : α} (hd : b.DerivedFrom k lo hi false) :
    k.WholeOver b.nodes := by
  cases k with
  | view sh base scale offset =>
    obtain ⟨hs, ho, m, hm, -, -, hc⟩ := hd
    simp only [Bool.false_eq, Bool.or_eq_false_iff] at hc
    exact ⟨hs, ho, m, getElem?_of_node hm, hc.1.1⟩
  | sum vars weights offset =>
    obtain ⟨hoff, hterms⟩ := foldlM_sumStep_whole _ _ _ hd rfl
    refine ⟨by simpa using hoff, fun t ht => ?_⟩
    obtain ⟨m, hm, hc⟩ := hterms t ht
    exact ⟨m, getElem?_of_node hm, hc⟩
  | _ => trivial

namespace WholeFolds

/-- Whole folds carry over to an arena that keeps every node of `b` up to its encoding, as soon
as the nodes beyond them have theirs. -/
theorem of_keepsOld (h : b.WholeFolds) (hold : KeepsOld b b')
    (hnew : ∀ id n, b.nodes.size ≤ id → b'.nodes[id]? = some n → n.continuous = false →
      n.kind.WholeOver b'.nodes) :
    b'.WholeFolds := by
  have hkeep : ∀ (i : Nat) (m : Node α), b.nodes[i]? = some m →
      ∃ m' : Node α, b'.nodes[i]? = some m' ∧ m'.continuous = m.continuous := fun i m hm => by
    obtain ⟨e, he⟩ := hold i m hm
    exact ⟨_, he, rfl⟩
  intro id n hn hc
  by_cases hid : b.nodes.size ≤ id
  · exact hnew id n hid hn hc
  · have hm := Array.getElem?_eq_getElem (Nat.lt_of_not_le hid)
    obtain ⟨e, he⟩ := hold id _ hm
    rw [hn, Option.some.injEq] at he
    subst he
    exact (h id _ hm hc).mono hkeep

/-- The walk of an add keeps whole folds: it pushes readings, which ask nothing. -/
theorem of_keepsNodes (h : b.WholeFolds) (hk : b.KeepsNodes b') : b'.WholeFolds :=
  h.of_keepsOld hk.old fun id n hid hn _ => by
    obtain ⟨x, e, rfl⟩ := hk.new id n hid hn
    trivial

/-- Appending a node with the flag it derives. -/
theorem push_derived (h : b.WholeFolds) {k₀ k : Kind α} {lo hi : α} {c : Bool}
    (hd : b.derive k₀ = .ok (k, lo, hi, c)) :
    (b.pushNode ⟨k, lo, hi, c, none⟩).2.WholeFolds := by
  refine h.of_keepsOld (.push b _) fun id n hid hn hc => ?_
  -- the one node beyond `b` is the new one
  change (b.nodes.push _)[id]? = some n at hn
  rw [Array.getElem?_push] at hn
  split at hn
  · cases hn
    have hd' := derive_derivedFrom hd
    rw [show c = false from hc] at hd'
    refine (derivedFrom_wholeOver hd').mono fun i m hm => ⟨m, ?_, rfl⟩
    change (b.nodes.push _)[i]? = some m
    rw [Array.getElem?_push, if_neg (Nat.ne_of_lt (Array.getElem?_eq_some_iff.1 hm).1)]
    exact hm
  · rw [Array.getElem?_eq_none hid] at hn
    cases hn

/-- A pin sets the bounds of a sum and keeps every kind and flag. -/
theorem setRhs (h : b.WholeFolds) {id : Nat} {k : α} (hs : b.setRhs id k = .ok b') :
    b'.WholeFolds := by
  obtain ⟨n, hn, -, rfl⟩ := setRhs_ok hs
  intro i m' hm' hc
  obtain ⟨m, hm, hk, hcont⟩ := pin_back hn k hm'
  rw [hk]
  refine (h i m hm (hcont ▸ hc)).mono fun j mj hj => ?_
  obtain ⟨mj', hj', -, hcj⟩ := pin_keeps hn k hj
  exact ⟨mj', hj', hcj⟩

theorem settle {x : Except (ModelError α) (Builder α)} (h : b.WholeFolds)
    (hx : ∀ b', x = .ok b' → b'.WholeFolds) : (b.settle x).2.WholeFolds := by
  cases x with
  | ok b' => exact hx b' rfl
  | error e => exact h

/-- Every request keeps whole folds. -/
theorem exec (h : b.WholeFolds) (hb : b.Idle) (r : Request α) : (b.exec r).2.WholeFolds := by
  cases r with
  | add id => exact h.of_keepsNodes (keepsNodes_addRun hb id)
  | addExpr k =>
    refine h.settle fun b' hb' => ?_
    obtain ⟨_, hok⟩ := map_snd_eq_ok hb'
    obtain ⟨k', lo, hi, c, hd, hr⟩ := addExpr_ok hok
    obtain rfl : b' = _ := congrArg Prod.snd hr
    exact h.push_derived hd
  | addIntArray xs =>
    refine h.settle fun b' hb' => ?_
    obtain ⟨_, hok⟩ := map_snd_eq_ok hb'
    rw [addIntArray_ok hok]
    exact h.of_keepsNodes (.of_nodes rfl)
  | addVarArray ids =>
    refine h.settle fun b' hb' => ?_
    obtain ⟨_, hok⟩ := map_snd_eq_ok hb'
    rw [addVarArray_ok hok]
    exact h.of_keepsNodes (.of_nodes rfl)
  | setRhs id k => exact h.settle fun b' hs => h.setRhs hs
  | initialise =>
    refine h.settle fun b' hb' => ?_
    rw [initialise_ok hb']
    exact h.of_keepsNodes (.of_nodes rfl)
  | initialiseWith ds =>
    refine h.settle fun b' hb' => ?_
    obtain ⟨-, cols, rfl⟩ := initialiseWith_ok hb'
    exact h.of_keepsNodes (.of_nodes rfl)

end WholeFolds

/-- Every builder that requests reach has whole folds. -/
theorem Reachable.wholeFolds (hb : b.Reachable) : b.WholeFolds := by
  induction hb with
  | new => exact fun _ _ hn => by simp [Builder.new] at hn
  | withConfig hc =>
    simp only [Builder.withConfig, bind, Except.bind, pure, Except.pure] at hc
    split at hc
    · cases hc
    · cases hc
      exact fun _ _ hn => by simp at hn
  | exec r hr ih => exact ih.exec hr.idle r

end Builder

end WholeFolds

namespace Builder

variable {b : Builder ERat}

/-- A node that is never fractional, in a builder with whole folds, expands with finite scales
and offsets. -/
theorem WholeFolds.expansion_finite (h : b.WholeFolds) {id : Nat} {n : Node ERat}
    (hn : b.nodes[id]? = some n) (hc : n.continuous = false) : n.expansion.Finite := by
  have hw := h id n hn hc
  cases he : n.expansion with
  | view base scale offset =>
    obtain ⟨sh, hk⟩ := Node.expansion_view he
    rw [hk] at hw
    exact ⟨exists_fin_of_isFinite hw.1, exists_fin_of_isFinite hw.2.1⟩
  | sum terms offset =>
    obtain ⟨vars, weights, hk, -⟩ := Node.expansion_sum he
    rw [hk] at hw
    -- a whole offset is finite
    have hfin : Scalar.isFinite offset = true := by
      have := hw.1
      simp only [Scalar.isWhole, Bool.and_eq_true] at this
      exact this.1
    exact exists_fin_of_isFinite hfin
  | _ => trivial

/-- Below a node that is never fractional lie only nodes that are never fractional. -/
theorem WholeFolds.below (h : b.WholeFolds) {id m : Nat} (hb : Row.Below b.nodes id m) :
    ∀ n, b.nodes[id]? = some n → n.continuous = false →
      ∃ k, b.nodes[m]? = some k ∧ k.continuous = false := by
  induction hb with
  | refl => exact fun n hn hc => ⟨n, hn, hc⟩
  | view hn hx _ ih =>
    intro n' hn' hc
    rw [hn, Option.some.injEq] at hn'
    subst hn'
    obtain ⟨sh, hk⟩ := Node.expansion_view hx
    have hw := h _ _ hn hc
    rw [hk] at hw
    obtain ⟨mb, hmb, hcb⟩ := hw.2.2
    exact ih mb hmb hcb
  | sum hn hx ht _ ih =>
    intro n' hn' hc
    rw [hn, Option.some.injEq] at hn'
    subst hn'
    obtain ⟨vars, weights, hk, rfl⟩ := Node.expansion_sum hx
    have hw := h _ _ hn hc
    rw [hk] at hw
    obtain ⟨mt, hmt, hct⟩ := hw.2 _ ht
    exact ih mt hmt hct

/-- A node that is never fractional folds with finite scales and offsets. -/
theorem WholeFolds.finiteBelow (h : b.WholeFolds) {id : Nat} {n : Node ERat}
    (hn : b.nodes[id]? = some n) (hc : n.continuous = false) : FiniteBelow b.nodes id := by
  intro m k hm hk
  obtain ⟨k', hk', hck⟩ := h.below hm n hn hc
  rw [hk, Option.some.injEq] at hk'
  subst hk'
  exact h.expansion_finite hk hck

/-- A node of kind neither a view nor a sum has nothing below it. -/
theorem finiteBelow_of_unfolded {id : Nat} {n : Node ERat} (hn : b.nodes[id]? = some n)
    (hview : ∀ sh base scale offset, n.kind ≠ .view sh base scale offset)
    (hsum : ∀ vars weights offset, n.kind ≠ .sum vars weights offset) : FiniteBelow b.nodes id := by
  intro m k hm hk
  cases hm with
  | refl =>
    rw [hn, Option.some.injEq] at hk
    subst hk
    cases he : n.expansion with
    | view base scale offset =>
      obtain ⟨sh, hk⟩ := Node.expansion_view he
      exact absurd hk (hview _ _ _ _)
    | sum terms offset =>
      obtain ⟨vars, weights, hk, -⟩ := Node.expansion_sum he
      exact absurd hk (hsum _ _ _)
    | _ => trivial
  | view hn' hx _ =>
    rw [hn, Option.some.injEq] at hn'
    subst hn'
    obtain ⟨sh, hk⟩ := Node.expansion_view hx
    exact absurd hk (hview _ _ _ _)
  | sum hn' hx _ _ =>
    rw [hn, Option.some.injEq] at hn'
    subst hn'
    obtain ⟨vars, weights, hk, -⟩ := Node.expansion_sum hx
    exact absurd hk (hsum _ _ _)

/-- In every builder that requests reach, logic reads every node finitely. A Boolean node is
never fractional, and a node that is never fractional folds through views and sums of finite
scales and offsets: an infinite or NaN offset, which a sum does not validate, marks the sum and
every node above it fractional. The node the cache holds for an operand is a relation, which
nothing lies below. -/
theorem Reachable.readsFinitely (hb : b.Reachable) (a : Nat) : b.ReadsFinitely a := by
  refine ⟨fun n hn hbool => ?_, fun r hr => ?_⟩
  · have hc : n.continuous = false := by
      simp only [Node.isBoolean, Bool.and_eq_true, Bool.not_eq_true'] at hbool
      exact hbool.1.1
    exact hb.wholeFolds.finiteBelow hn hc
  · obtain ⟨p, hp, rfl⟩ := exists_mem_of_lookup_eq_some hr
    obtain ⟨m, hm, hk, -⟩ := hb.sound.readings p hp
    exact finiteBelow_of_unfolded hm (fun _ _ _ _ h => by rw [hk] at h; cases h)
      (fun _ _ _ h => by rw [hk] at h; cases h)

end Builder

end MipLowering
