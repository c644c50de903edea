import MipLowering.Proofs.Lowering.FaithfulWalk
import MipLowering.Proofs.Lowering.Admission
import MipLowering.Proofs.Lowering.WellFormed

/-!
# Lowering is exact on integer models

A builder that requests over integers reach from a new one (`Builder.Request.OverIntegers`: every
node added has integer data, and no sum is pinned) has a model that is exact on the roots its adds
asserted (`Builder.rootsOf`). Give every variable of the arena an integer of its domain, and every
other node the value its operands give it (`denote`): these values extend to a point of the model
exactly when every asserted root holds under them (`Builder.lowering_exact_on_integer_models`).

The proof carries one invariant along the requests (`Builder.ExactOn`): the builder is lowerable,
and lowering from the new builder to it is faithful to every `val` it is consistent with,
asserting the roots. An add is a walk, faithful by `Lowering.visit_faithful`; an added node is
unencoded and changes no point; the other requests change neither the arena nor the columns and
rows. A flow constraint needs the domains of its variables within the range of a 64-bit integer
(`Builder.FlowsFit`), on which its indicators are built; outside it the image of a view saturates.

## Main definitions

* `MipLowering.Builder.Request.OverIntegers`, `MipLowering.Builder.rootsOf`.
* `MipLowering.Builder.RootsHold` — the asserted roots hold.
* `MipLowering.Builder.ExactOn` — the invariant along the requests.

## Main results

* `MipLowering.Builder.ExactOn.exec`, `MipLowering.Builder.ExactOn.execAll` — the invariant along
  one request and along a run.
* `MipLowering.Builder.lowering_exact_on_integer_models`.
-/

namespace MipLowering

open ERat Lowering

namespace Lowering

variable {b b' : Builder ERat} {id : Nat} {top : Bool}

/-- A walk that succeeds starts from a node of the arena. -/
theorem lt_size_of_visit (h : (visit id top).run b = .ok () b') : id < b.nodes.size := by
  rw [visit, run_bind, nodeAt_run] at h
  cases hn : b.nodes[id]? with
  | none =>
    rw [hn] at h
    cases h
  | some n => exact (Array.getElem?_eq_some_iff.1 hn).1

end Lowering

namespace Builder

variable {b b' b'' : Builder ERat} {R R' : List Nat} {val : Nat → ℚ}

/-! ### Requests over integers -/

/-- A request over integers: an added node has integer data, and no sum is pinned. -/
def Request.OverIntegers : Request ERat → Prop
  | .addExpr k => k.OverIntegers
  | .setRhs _ _ => False
  | _ => True

/-- The root an add asserts: its node, when the add succeeds. -/
def Request.asserted (b : Builder ERat) : Request ERat → List Nat
  | .add id => if (b.addRun id).1.isOk then [id] else []
  | _ => []

/-- The roots that the adds of a run of requests from `b` assert, in order. -/
def rootsOf (b : Builder ERat) : List (Request ERat) → List Nat
  | [] => []
  | r :: rs => r.asserted b ++ (b.exec r).2.rootsOf rs

/-- Every root in `R` that is a node of `b` holds under `val`. -/
def RootsHold (b : Builder ERat) (R : List Nat) (val : Nat → ℚ) : Prop :=
  ∀ r ∈ R, ∀ n : Node ERat, b.nodes[r]? = some n → n.kind.Holds val

theorem rootsHold_append : b.RootsHold (R ++ R') val ↔ b.RootsHold R val ∧ b.RootsHold R' val := by
  simp only [RootsHold, List.mem_append, or_imp, forall_and]

theorem rootsHold_singleton {r : Nat} :
    b.RootsHold [r] val ↔ ∀ n : Node ERat, b.nodes[r]? = some n → n.kind.Holds val := by
  simp [RootsHold]

/-- Whether roots of the arena hold reads their kinds only, which later steps keep. -/
theorem RootsHold.congr (hk : b.KeepsOld b') (hR : ∀ r ∈ R, r < b.nodes.size) :
    b'.RootsHold R val ↔ b.RootsHold R val := by
  refine forall₂_congr fun r hr => ?_
  obtain ⟨n, hn⟩ : ∃ n, b.nodes[r]? = some n := ⟨_, Array.getElem?_eq_getElem (hR r hr)⟩
  obtain ⟨e, hn'⟩ := hk r n hn
  rw [forall_getElem?_holds_iff hn, forall_getElem?_holds_iff hn']

theorem Request.pinned_eq_nil {r : Request ERat} (hr : r.OverIntegers) : r.pinned b = [] := by
  cases r with
  | setRhs => exact hr.elim
  | _ => rfl

/-! ### Steps that keep the model -/

theorem KeepsOld.refl (b : Builder ERat) : b.KeepsOld b :=
  fun _ n hn => ⟨n.encoding, hn⟩

theorem KeepsOld.trans (h : b.KeepsOld b') (h' : b'.KeepsOld b'') : b.KeepsOld b'' := by
  intro i n hn
  obtain ⟨e, he⟩ := h i n hn
  obtain ⟨e', he'⟩ := h' i _ he
  exact ⟨e', he'⟩

theorem KeepsOld.lt_size (h : b.KeepsOld b') {i : Nat} (hi : i < b.nodes.size) :
    i < b'.nodes.size := by
  obtain ⟨e, he⟩ := h i _ (Array.getElem?_eq_getElem hi)
  exact (Array.getElem?_eq_some_iff.1 he).1

/-- `b'` has the arena, configuration, columns and rows of `b`. -/
structure SameModel (b b' : Builder ERat) : Prop where
  nodes : b'.nodes = b.nodes
  config : b'.config = b.config
  columns : b'.model.columns = b.model.columns
  rows : b'.model.rows = b.model.rows

theorem SameModel.refl (b : Builder ERat) : b.SameModel b :=
  ⟨rfl, rfl, rfl, rfl⟩

theorem SameModel.keepsOld (h : b.SameModel b') : b.KeepsOld b' :=
  (KeepsNodes.of_nodes h.nodes).old

/-- A step to a sound builder with the same arena, configuration and columns keeps a builder
lowerable. -/
theorem Lowerable.of_same (h : b.Lowerable) (hs : b'.Sound) (hsame : b.SameModel b') :
    b'.Lowerable :=
  ⟨hs, hsame.config.trans h.config, fun j n hn => h.integer j n (hsame.nodes ▸ hn),
    h.derived.of_keepsNodes (.of_nodes hsame.nodes), fun j n hn => h.shapes j n (hsame.nodes ▸ hn),
    h.indicators.of_nodes hsame.nodes fun _ _ hc => hsame.columns ▸ hc⟩

/-- Pushing an unencoded node with integer data keeps a builder lowerable. -/
theorem Lowerable.push (h : b.Lowerable) {n : Node ERat} (hs : (b.pushNode n).2.Sound)
    (hd : (b.pushNode n).2.BoundsDerived []) (hn : n.encoding = none) (hint : n.kind.IntegerData) :
    (b.pushNode n).2.Lowerable := by
  -- a node of the new arena is the pushed one or one of `b`
  have hnode : ∀ (j : Nat) (m : Node ERat), (b.pushNode n).2.nodes[j]? = some m →
      m = n ∨ b.nodes[j]? = some m := by
    intro j m hm
    simp only [pushNode, Array.getElem?_push] at hm
    split_ifs at hm
    · exact .inl (Option.some.inj hm).symm
    · exact .inr hm
  refine ⟨hs, h.config, fun j m hm => ?_, hd, fun j m hm => ?_, h.indicators.push hn⟩
  · rcases hnode j m hm with rfl | hm
    · exact hint
    · exact h.integer j m hm
  · rcases hnode j m hm with rfl | hm
    · exact Node.conditionShape_of_none hn
    · exact h.shapes j m hm

/-- An add of a node over integers stores it unencoded, with integer data: a list of values is
stored strictly increasing from its first to its last value, and the demands of a flow are
validated. -/
theorem integerData_of_addExpr {k : Kind ERat} (hk : k.OverIntegers) {r : Nat × Builder ERat}
    (h : b.addExpr k = .ok r) :
    ∃ n : Node ERat, r = b.pushNode n ∧ n.encoding = none ∧ n.kind.IntegerData := by
  obtain ⟨n, rfl, hnone, hkind, hvals⟩ := addExpr_ok_stored h
  refine ⟨n, rfl, hnone, ?_⟩
  by_cases hv : ∃ l u vs, k = .intVar l u (some vs)
  · obtain ⟨l, u, vs, hkv⟩ := hv
    obtain ⟨ws, a, z, hws, -, hhead, hlast, hnk, -, -⟩ := hvals l u vs hkv
    rw [hnk]
    refine ⟨trivial, fun l' u' D hD => ?_, fun _ _ _ _ _ hD => by cases hD⟩
    cases hD
    exact ⟨hws, hhead, hlast⟩
  · rw [hkind fun l u vs hkv => hv ⟨l, u, vs, hkv⟩]
    obtain ⟨k', lo, hi, c, hder, -⟩ := addExpr_ok h
    have hvalid : k.Valid := ((derive_isOk_iff k).1 ⟨_, hder⟩).2
    refine ⟨hk, fun l u D hD => absurd ⟨l, u, D, hD⟩ hv, fun kind vars values lb ub hflow d hd => ?_⟩
    subst hflow
    cases kind with
    | allDifferent =>
      have hnil : values = [] := hvalid
      simp [hnil] at hd
    | gcc =>
      obtain ⟨-, -, hp⟩ := hvalid
      obtain ⟨h0, hle⟩ := hp d.2 (List.of_mem_zip hd).2
      exact h0.trans hle

/-- An add that succeeds is its walk, with the list of the nodes it encoded cleared. -/
theorem addRun_ok_walk {id : Nat} (h : (b.addRun id).1.isOk = true) :
    ∃ b', (visit id true).run b = .ok () b' ∧ (b.addRun id).2 = { b' with encoded := [] } := by
  revert h
  unfold Builder.addRun
  split
  · intro h
    cases h
  split
  · intro h
    cases h
  split
  · next b' hrun => exact fun _ => ⟨b', hrun, rfl⟩
  · intro h
    cases h

theorem keepsOld_settle {x : Except (ModelError ERat) (Builder ERat)}
    (hx : ∀ b', x = .ok b' → b.KeepsOld b') : b.KeepsOld (b.settle x).2 := by
  cases x with
  | ok b' => exact hx b' rfl
  | error e => exact KeepsOld.refl b

theorem sameModel_settle {x : Except (ModelError ERat) (Builder ERat)}
    (hx : ∀ b', x = .ok b' → b.SameModel b') : b.SameModel (b.settle x).2 := by
  cases x with
  | ok b' => exact hx b' rfl
  | error e => exact SameModel.refl b

/-- The requests that neither add a node, nor lower one, nor pin a sum change neither the arena
nor the columns and rows: they register arrays, or freeze the model with its decisions. -/
theorem sameModel_exec {r : Request ERat} (hadd : ∀ id, r ≠ .add id) (hexpr : ∀ k, r ≠ .addExpr k)
    (hrhs : ∀ id k, r ≠ .setRhs id k) : b.SameModel (b.exec r).2 := by
  cases r with
  | add id => exact absurd rfl (hadd id)
  | addExpr k => exact absurd rfl (hexpr k)
  | setRhs id k => exact absurd rfl (hrhs id k)
  | addIntArray xs =>
    refine sameModel_settle fun b' hb' => ?_
    obtain ⟨_, hok⟩ := map_snd_eq_ok hb'
    obtain rfl := addIntArray_ok hok
    exact ⟨rfl, rfl, rfl, rfl⟩
  | addVarArray ids =>
    refine sameModel_settle fun b' hb' => ?_
    obtain ⟨_, hok⟩ := map_snd_eq_ok hb'
    obtain rfl := addVarArray_ok hok
    exact ⟨rfl, rfl, rfl, rfl⟩
  | initialise =>
    refine sameModel_settle fun b' hb' => ?_
    obtain rfl := initialise_ok hb'
    exact ⟨rfl, rfl, rfl, rfl⟩
  | initialiseWith ds =>
    refine sameModel_settle fun b' hb' => ?_
    obtain ⟨-, cols, rfl⟩ := initialiseWith_ok hb'
    exact ⟨rfl, rfl, rfl, rfl⟩

/-- A request over integers keeps the arena of an idle builder, up to encodings. -/
theorem keepsOld_exec (hb : b.Idle) {r : Request ERat} (hr : r.OverIntegers) :
    b.KeepsOld (b.exec r).2 := by
  cases r with
  | add id => exact (keepsNodes_addRun hb id).old
  | addExpr k =>
    refine keepsOld_settle fun b' hb' => ?_
    obtain ⟨_, hok⟩ := map_snd_eq_ok hb'
    obtain ⟨n, hp, -⟩ := integerData_of_addExpr hr hok
    obtain rfl : b' = (b.pushNode n).2 := congrArg Prod.snd hp
    exact KeepsOld.push b n
  | setRhs => exact hr.elim
  | addIntArray | addVarArray | initialise | initialiseWith =>
    exact (sameModel_exec (by simp) (by simp) (by simp)).keepsOld

theorem PinnedReachable.exec_of_overIntegers (h : PinnedReachable b []) {r : Request ERat}
    (hr : r.OverIntegers) : PinnedReachable (b.exec r).2 [] := by
  have h' := PinnedReachable.exec r h
  rwa [Request.pinned_eq_nil hr, List.append_nil] at h'

/-- A run of requests over integers keeps the arena, up to encodings. By induction on the run. -/
theorem keepsOld_execAll : ∀ (rs : List (Request ERat)) {b : Builder ERat}, PinnedReachable b [] →
    (∀ r ∈ rs, r.OverIntegers) → b.KeepsOld (b.execAll rs)
  | [], b, _, _ => KeepsOld.refl b
  | r :: rs, b, hb, hrs => by
    have hr := hrs r List.mem_cons_self
    exact (keepsOld_exec hb.reachable.idle hr).trans (keepsOld_execAll rs
      (hb.exec_of_overIntegers hr) fun r' hr' => hrs r' (List.mem_cons_of_mem _ hr'))

/-! ### The invariant along requests -/

/-- A builder reached from a new one by requests over integers, with the roots `R` its adds
asserted: it is lowerable, its roots are nodes of its arena, and lowering from the new builder to
it is faithful to every `val` it is consistent with, asserting the roots. -/
structure ExactOn (b : Builder ERat) (R : List Nat) : Prop where
  reachable : PinnedReachable b []
  lowerable : b.Lowerable
  roots : ∀ r ∈ R, r < b.nodes.size
  faithful : ∀ val, b.Consistent val → Faithful val Builder.new b (b.RootsHold R val)

theorem lowerable_new : (Builder.new : Builder ERat).Lowerable := by
  refine ⟨PinnedReachable.new.reachable.sound, rfl, fun j n hn => ?_, PinnedReachable.new.boundsDerived,
    fun j n hn => ?_, fun j n v hn => ?_⟩ <;> simp [Builder.new] at hn

theorem ExactOn.new : (Builder.new : Builder ERat).ExactOn [] :=
  ⟨.new, lowerable_new, fun _ h => (by cases h),
    fun _ _ => (Faithful.refl _).of_iff (iff_of_true trivial fun _ h => (by cases h))⟩

namespace ExactOn

/-- A request that keeps the arena, the columns and the rows keeps the invariant. -/
theorem of_same (h : b.ExactOn R) (hreach : PinnedReachable b' []) (hsame : b.SameModel b') :
    b'.ExactOn R := by
  refine ⟨hreach, h.lowerable.of_same hreach.reachable.sound hsame,
    fun r hr => hsame.nodes ▸ h.roots r hr, fun val hval => ?_⟩
  have hval' : b.Consistent val := fun j n hn => hval j n (hsame.nodes ▸ hn)
  have hroots : b'.RootsHold R val ↔ b.RootsHold R val := by
    simp only [RootsHold, hsame.nodes]
  exact ((h.faithful val hval').congr_points hsame.nodes hsame.columns hsame.rows).of_iff
    hroots.symm

/-- An add of an unencoded node keeps the invariant: the node changes no point. -/
theorem push (h : b.ExactOn R) {n : Node ERat} (hreach : PinnedReachable (b.pushNode n).2 [])
    (hn : n.encoding = none) (hint : n.kind.IntegerData) : (b.pushNode n).2.ExactOn R := by
  have hctx := h.lowerable
  have hg : b.Grows (b.pushNode n).2 := (Grows.refl b).pushNode n
  refine ⟨hreach, hctx.push hreach.reachable.sound hreach.boundsDerived hn hint,
    fun r hr => (KeepsOld.push b n).lt_size (h.roots r hr), fun val hval => ?_⟩
  have hf := Faithful.trans hg hctx.sound (h.faithful val (hg.consistent hval))
    (Faithful.pushNode_none hctx.sound hn)
  exact hf.of_iff (by rw [and_true, RootsHold.congr (KeepsOld.push b n) h.roots])

/-- An add whose walk succeeds keeps the invariant, its node asserted, as soon as the flows of
the builder the walk leads to fit. -/
theorem walk (h : b.ExactOn R) {id : Nat} (hrun : (visit id true).run b = .ok () b')
    (hreach : PinnedReachable { b' with encoded := [] } []) (hfit : b'.FlowsFit) :
    ({ b' with encoded := [] } : Builder ERat).ExactOn (R ++ [id]) := by
  have hw := visit_faithful id true hrun h.lowerable h.reachable.reachable.namesOwned.1 hfit
  have hk : b.KeepsOld { b' with encoded := [] } := (visit_keepsNodes id true b () b' hrun).old
  have hR : ∀ r ∈ R ++ [id], r < b.nodes.size := by
    intro r hr
    rcases List.mem_append.1 hr with hr | hr
    · exact h.roots r hr
    · rw [List.mem_singleton.1 hr]
      exact lt_size_of_visit hrun
  refine ⟨hreach, hw.lowerable.of_same hreach.reachable.sound ⟨rfl, rfl, rfl, rfl⟩,
    fun r hr => hk.lt_size (hR r hr), fun val hval => ?_⟩
  -- the walk narrows the model: the roots before it still hold, and so does its node
  have hval' : b'.Consistent val := hval
  have hf := Faithful.trans_narrows hw.narrows (h.faithful val (hw.narrows.consistent val hval'))
    (hw.faithful val hval')
  refine Faithful.of_iff (hf.congr_points rfl rfl rfl) ?_
  rw [RootsHold.congr hk hR, rootsHold_append, rootsHold_singleton]
  simp

/-- A request that changes the builder or fails keeps the invariant when its change does. -/
theorem settle (h : b.ExactOn R) {x : Except (ModelError ERat) (Builder ERat)}
    (hx : ∀ b', x = .ok b' → PinnedReachable b' [] → b'.ExactOn R)
    (hreach : PinnedReachable (b.settle x).2 []) : (b.settle x).2.ExactOn R := by
  cases x with
  | ok b' => exact hx b' rfl hreach
  | error e => exact h

/-- Every request over integers keeps the invariant, the root of a successful add asserted, as
soon as the flows of the builder it leads to fit. -/
theorem exec (h : b.ExactOn R) {r : Request ERat} (hr : r.OverIntegers)
    (hfit : (b.exec r).2.FlowsFit) : (b.exec r).2.ExactOn (R ++ r.asserted b) := by
  have hreach := h.reachable.exec_of_overIntegers hr
  cases r with
  | add id =>
    change (b.addRun id).2.ExactOn (R ++ (if (b.addRun id).1.isOk then [id] else []))
    change PinnedReachable (b.addRun id).2 [] at hreach
    change (b.addRun id).2.FlowsFit at hfit
    by_cases hok : (b.addRun id).1.isOk = true
    · obtain ⟨b', hrun, heq⟩ := addRun_ok_walk hok
      rw [if_pos hok, heq]
      rw [heq] at hreach hfit
      exact h.walk hrun hreach hfit
    · -- a failed add leaves the builder as it was
      obtain ⟨e, he⟩ : ∃ e, (b.addRun id).1 = .error e := by
        cases hx : (b.addRun id).1 with
        | ok x =>
          rw [hx] at hok
          exact absurd rfl hok
        | error e => exact ⟨e, rfl⟩
      rw [if_neg hok, List.append_nil, addRun_error h.reachable.reachable.idle he]
      exact h
  | addExpr k =>
    rw [show (Request.addExpr k).asserted b = [] from rfl, List.append_nil]
    refine h.settle (x := (b.addExpr k).map Prod.snd) (fun b' hb' hreach' => ?_) hreach
    obtain ⟨_, hok⟩ := map_snd_eq_ok hb'
    obtain ⟨n, hp, hn, hint⟩ := integerData_of_addExpr hr hok
    obtain rfl : b' = (b.pushNode n).2 := congrArg Prod.snd hp
    exact h.push hreach' hn hint
  | setRhs => exact hr.elim
  | addIntArray | addVarArray | initialise | initialiseWith =>
    simp only [Request.asserted, List.append_nil]
    exact h.of_same hreach (sameModel_exec (by simp) (by simp) (by simp))

/-- A run of requests over integers keeps the invariant, with the roots its adds asserted, as
soon as the flows of the builder it ends on fit. By induction on the run: the flows fit after
each request, since the later ones keep its arena. -/
theorem execAll : ∀ (rs : List (Request ERat)) {b : Builder ERat} {R : List Nat}, b.ExactOn R →
    (∀ r ∈ rs, r.OverIntegers) → (b.execAll rs).FlowsFit →
    (b.execAll rs).ExactOn (R ++ b.rootsOf rs)
  | [], b, R, h, _, _ => by
    rw [show b.rootsOf [] = [] from rfl, List.append_nil]
    exact h
  | r :: rs, b, R, h, hrs, hfit => by
    have hr := hrs r List.mem_cons_self
    have hrs' : ∀ r' ∈ rs, r'.OverIntegers := fun r' hr' => hrs r' (List.mem_cons_of_mem _ hr')
    have hkeep := keepsOld_execAll rs (h.reachable.exec_of_overIntegers hr) hrs'
    have h₁ := h.exec hr (FlowsFit.of_keepsOld hfit hkeep)
    rw [show b.rootsOf (r :: rs) = r.asserted b ++ (b.exec r).2.rootsOf rs from rfl,
      ← List.append_assoc]
    exact execAll rs h₁ hrs' hfit

end ExactOn

/-! ### Values of the variables -/

section Denote

variable {σ : Nat → ℤ}

/-- Over integer data, with every variable at an integer of its domain, every node takes an
integer value. By strong induction on the node: its operands precede it. -/
theorem Lowerable.denote_integral (h : b.Lowerable)
    (hσ : ∀ (j : Nat) (n : Node ERat), b.nodes[j]? = some n → n.kind.Admits (σ j)) (j : Nat) :
    ∃ z : ℤ, denote b.nodes σ j = z := by
  induction j using Nat.strong_induction_on with
  | _ j ih =>
  cases hn : b.nodes[j]? with
  | none => exact ⟨0, by rw [denote, hn, Int.cast_zero]⟩
  | some n =>
    exact (denote_denotes h.sound.children hn (hσ j n hn)).integral (h.integer j n hn).1
      fun c hc => ih c (h.sound.children j n hn c hc)

/-- A lowerable builder is consistent with the values its nodes take when every variable takes
an integer of its domain: each node denotes its value, an integer within its derived bounds. -/
theorem Lowerable.consistent_denote (h : b.Lowerable)
    (hσ : ∀ (j : Nat) (n : Node ERat), b.nodes[j]? = some n → n.kind.Admits (σ j)) :
    b.Consistent (denote b.nodes σ) := by
  intro j n hn _
  have hord : OperandsPrecede b.nodes := h.sound.children
  refine ⟨denote_denotes hord hn (hσ j n hn), h.denote_integral hσ j,
    encloses_of_derivedAlong hord _ j n hn ⟨fun i m _ hm => ?_, fun i m _ hm => ?_,
      fun i m _ hm => (denote_denotes hord hm (hσ i m hm)).1⟩⟩
  · exact h.derived i m hm fun _ _ => List.not_mem_nil
  · exact (h.integer i m hm).offsetFinite

end Denote

theorem reads_new (val : Nat → ℚ) (W : Array ERat) : (Builder.new : Builder ERat).Reads val W := by
  rintro j ⟨n, hn, -⟩
  simp [Builder.new] at hn

theorem point_new : (Builder.new : Builder ERat).model.Point #[] := by
  refine ⟨fun v c hv => ?_, fun r hr => ?_⟩
  · simp [Builder.new] at hv
  · simp [Builder.new] at hr

/-! ### Exactness -/

/-- Lowering is exact on integer models. Let `b` be reached from a new builder by requests over
integers, with the domains of the variables of its flow constraints within the range of a 64-bit
integer, and let every variable `j` of its arena take an integer `σ j` of its domain. These values
extend to a point of the model of `b` exactly when every root that an add asserted holds under the
values they give the nodes. -/
theorem lowering_exact_on_integer_models {rs : List (Request ERat)} {b : Builder ERat}
    (hb : Builder.new.execAll rs = b) (hrs : ∀ r ∈ rs, r.OverIntegers) (hfit : b.FlowsFit)
    {σ : Nat → ℤ} (hσ : ∀ (j : Nat) (n : Node ERat), b.nodes[j]? = some n → n.kind.Admits (σ j)) :
    (∃ W, b.model.Point W ∧ b.Agrees (denote b.nodes σ) W) ↔
      b.RootsHold (Builder.new.rootsOf rs) (denote b.nodes σ) := by
  subst hb
  have h := ExactOn.new.execAll rs hrs hfit
  rw [List.nil_append] at h
  have hf := h.faithful _ (h.lowerable.consistent_denote hσ)
  constructor
  · rintro ⟨W, hW, hA⟩
    exact (hf.sound W hW (reads_new _ W) hA).2
  · intro hroots
    obtain ⟨W, -, hW, hR⟩ := hf.complete #[] rfl point_new (reads_new _ #[]) hroots
    exact ⟨W, hW, hR.agrees⟩

/-- Two integer variables over `[0, 3]` and the relation `x < y` between them, added. -/
def lessThanRequests : List (Request ERat) :=
  [.addExpr (.intVar 0 3 none), .addExpr (.intVar 0 3 none), .addExpr (.rel .lt 0 (.node 1)), .add 2]

/-- The builder these requests lead to. -/
def lessThanBuilder : Builder ERat := Builder.new.execAll lessThanRequests

/-- `x = 1` and `y = 2`. -/
def lessThanValues (j : Nat) : ℤ := if j = 0 then 1 else 2

theorem lessThanBuilder_kinds :
    lessThanBuilder.nodes.toList.map Node.kind =
      [.intVar 0 3 none, .intVar 0 3 none, .rel .lt 0 (.node 1)] := by
  with_unfolding_all rfl

theorem lessThan_lowering_exact :
    (∃ W, lessThanBuilder.model.Point W ∧
        lessThanBuilder.Agrees (denote lessThanBuilder.nodes lessThanValues) W) ↔
      lessThanBuilder.RootsHold (Builder.new.rootsOf lessThanRequests)
        (denote lessThanBuilder.nodes lessThanValues) := by
  -- every node of the arena is one of the three requested
  have hkind : ∀ (j : Nat) (n : Node ERat), lessThanBuilder.nodes[j]? = some n →
      n.kind = .intVar 0 3 none ∨ n.kind = .rel .lt 0 (.node 1) := by
    intro j n hn
    have hmem : n.kind ∈ lessThanBuilder.nodes.toList.map Node.kind :=
      List.mem_map_of_mem (Array.mem_toList_iff.2 (Array.mem_of_getElem? hn))
    rw [lessThanBuilder_kinds] at hmem
    simp only [List.mem_cons, List.not_mem_nil, or_false] at hmem
    rcases hmem with h | h | h
    · exact .inl h
    · exact .inl h
    · exact .inr h
  refine lowering_exact_on_integer_models rfl ?_ ?_ ?_
  · simp [lessThanRequests, Request.OverIntegers, Kind.OverIntegers]
  · intro j n kind vars values lb ub hn hflow
    rcases hkind j n hn with h | h <;> rw [h] at hflow <;> cases hflow
  · intro j n hn
    rcases hkind j n hn with h | h <;> rw [h]
    · simp only [Kind.Admits, lessThanValues]
      split_ifs <;> decide
    · trivial

end Builder

end MipLowering
