import MipLowering.Proofs.Lowering.FaithfulRelations

/-!
# Readings and logic connectives, lowered faithfully

Logic reads each operand as a 0/1 quantity: a Boolean node as itself, any other node `a` through
the node `a ≠ 0`, taken from the builder's cache or pushed and lowered nested on first use
(`Lowering.reading`). A reading is a faithful step that asserts nothing, and the node it reads
takes, under every `val` the builder is consistent with, the truth value of the operand
(`Builder.ReadsBit`, `Builder.Faithful.reading`).

The rows of a negation, conjunction or disjunction compute the connective on these truth values
(`Lowering.LogicRows`), so each connective is a faithful step too: its readings, then its rows
(`Builder.Faithful.logicRows`, `Builder.Faithful.not`, `Builder.Faithful.and`,
`Builder.Faithful.or`).

## Main definitions

* `MipLowering.Builder.ReadsBit` — a reading whose node takes the truth value of the operand.

## Main results

* `MipLowering.Builder.Faithful.reading`, `MipLowering.Builder.Faithful.logicRows`.
* `MipLowering.Builder.Faithful.not`, `MipLowering.Builder.Faithful.and`,
  `MipLowering.Builder.Faithful.or`.
-/

namespace MipLowering

open ERat Lowering

/-- A key found in an association list is paired there with what was found. -/
theorem mem_of_lookup_eq_some : ∀ {l : List (Nat × Nat)} {a r : Nat}, l.lookup a = some r → (a, r) ∈ l
  | [], _, _, h => by simp [List.lookup] at h
  | (k, v) :: l, a, r, h => by
    by_cases hk : a = k
    · subst hk
      simp only [List.lookup, beq_self_eq_true, Option.some.injEq] at h
      subst h
      exact List.mem_cons_self
    · simp only [List.lookup, beq_false_of_ne hk] at h
      exact List.mem_cons_of_mem _ (mem_of_lookup_eq_some h)

namespace Lowering

/-- A reading missing from the cache pushes the node `a ≠ 0`, lowers it nested on the fragment
`a - 0`, records its encoding and caches it. -/
theorem reading_run_fresh {b b₁ : Builder ERat} {a : Nat} {m : Node ERat} {x : Reading}
    (hm : b.nodes[a]? = some m) (hbool : m.isBoolean = false) (hr : b.readings.lookup a = none)
    (h : (reading a).run b = .ok x b₁) :
    ∃ e b₃, (difference a (.const Scalar.zero) Scalar.zero >>= fun expr =>
        encodeRel b.nodes.size .ne expr false).run (b.pushNode (Builder.readingNode a)).2 =
        .ok e b₃ ∧
      x = .node b.nodes.size ∧
      b₁ = { b₃.encodeAs b.nodes.size e with readings := (a, b.nodes.size) :: b₃.readings } := by
  obtain ⟨n, b₀, hn, hk⟩ := run_bind_ok h
  rw [nodeAt_run, hm] at hn
  cases hn
  have hget : (get : Lowering ERat (Builder ERat)).run b = .ok b b := rfl
  rw [if_neg (by simp [hbool]), run_bind, hget] at hk
  dsimp only at hk
  rw [hr] at hk
  obtain ⟨ne, b₂, hp, hk⟩ := run_bind_ok hk
  cases hp
  obtain ⟨expr, b₃, hd, hk⟩ := run_bind_ok hk
  obtain ⟨e, b₄, he, hk⟩ := run_bind_ok hk
  obtain ⟨_, b₅, hs, hk⟩ := run_bind_ok hk
  cases hs
  obtain ⟨_, b₆, hmod, hk⟩ := run_bind_ok hk
  cases hmod
  cases hk
  have hd' : (difference a (.const Scalar.zero) Scalar.zero).run (b.pushNode (Builder.readingNode a)).2 =
      .ok expr b₃ := hd
  refine ⟨e, b₄, ?_, rfl, rfl⟩
  rw [run_bind, hd']
  exact he

section Tails

variable {b b₁ b₂ b₃ : Builder ERat} {id a c : Nat} {top : Bool} {e : Encoding} {x y : Reading}

/-- Once its operand is read, a negation adds rows and at most one binary, keeping the arena. -/
theorem encodeNot_tail (h : (encodeNot id a top).run b = .ok e b₁)
    (hx : (reading a).run b = .ok x b₂) : b₂.Grows b₁ ∧ ∃ j ≤ 1, b₂.AddsBinaries b₁ j := by
  have hk := run_bind_ok_of h hx
  cases top with
  | true =>
    obtain ⟨j, hj, hadd⟩ := ((readingRow_addsBinaries _ _ _ _ _).bind fun _ =>
      (post_addsBinaries _).bind fun _ => AddsBinaries.pure _) _ _ _ hk
    exact ⟨(grows_of_run ((readingRow_undoable _ _ _ _ _).bind fun _ _ =>
      (post_undoable _).bind fun _ _ => .pure (Q := fun _ => True) trivial) hk).1, j, by omega, hadd⟩
  | false =>
    obtain ⟨j, hj, hadd⟩ := ((indicator_addsBinaries _ _).bind fun _ =>
      (readingRow_addsBinaries _ _ _ _ _).bind fun _ =>
        (post_addsBinaries _).bind fun _ => AddsBinaries.pure _) _ _ _ hk
    exact ⟨(grows_of_run ((indicator_undoable _ _).bind fun _ _ =>
      (readingRow_undoable _ _ _ _ _).bind fun _ _ =>
        (post_undoable _).bind fun _ _ => .pure (Q := fun _ => True) trivial) hk).1, j, by omega, hadd⟩

/-- Once its operands are read, a conjunction adds rows and at most one binary. -/
theorem encodeAnd_tail (h : (encodeAnd id a c top).run b = .ok e b₁)
    (hx : (reading a).run b = .ok x b₂) (hy : (reading c).run b₂ = .ok y b₃) :
    b₃.Grows b₁ ∧ ∃ j ≤ 1, b₃.AddsBinaries b₁ j := by
  have hk := run_bind_ok_of h hx
  replace hk := run_bind_ok_of hk hy
  cases top with
  | true =>
    obtain ⟨j, hj, hadd⟩ := ((readingRow_addsBinaries _ _ _ _ _).bind fun _ =>
      (post_addsBinaries _).bind fun _ => (readingRow_addsBinaries _ _ _ _ _).bind fun _ =>
        (post_addsBinaries _).bind fun _ => AddsBinaries.pure _) _ _ _ hk
    exact ⟨(grows_of_run ((readingRow_undoable _ _ _ _ _).bind fun _ _ =>
      (post_undoable _).bind fun _ _ => (readingRow_undoable _ _ _ _ _).bind fun _ _ =>
        (post_undoable _).bind fun _ _ => .pure (Q := fun _ => True) trivial) hk).1, j, by omega, hadd⟩
  | false =>
    obtain ⟨j, hj, hadd⟩ := ((indicator_addsBinaries _ _).bind fun _ =>
      (postAnd_addsBinaries _ _ _).bind fun _ => AddsBinaries.pure _) _ _ _ hk
    exact ⟨(grows_of_run ((indicator_undoable _ _).bind fun _ _ =>
      (postAnd_undoable _ _ _).bind fun _ _ => .pure (Q := fun _ => True) trivial) hk).1, j, by omega, hadd⟩

/-- Once its operands are read, a disjunction adds rows and at most one binary. -/
theorem encodeOr_tail (h : (encodeOr id a c top).run b = .ok e b₁)
    (hx : (reading a).run b = .ok x b₂) (hy : (reading c).run b₂ = .ok y b₃) :
    b₃.Grows b₁ ∧ ∃ j ≤ 1, b₃.AddsBinaries b₁ j := by
  have hk := run_bind_ok_of h hx
  replace hk := run_bind_ok_of hk hy
  cases top with
  | true =>
    obtain ⟨j, hj, hadd⟩ := ((readingRow_addsBinaries _ _ _ _ _).bind fun _ =>
      (post_addsBinaries _).bind fun _ => AddsBinaries.pure _) _ _ _ hk
    exact ⟨(grows_of_run ((readingRow_undoable _ _ _ _ _).bind fun _ _ =>
      (post_undoable _).bind fun _ _ => .pure (Q := fun _ => True) trivial) hk).1, j, by omega, hadd⟩
  | false =>
    obtain ⟨j, hj, hadd⟩ := ((indicator_addsBinaries _ _).bind fun _ =>
      (postOr_addsBinaries _ _ _).bind fun _ => AddsBinaries.pure _) _ _ _ hk
    exact ⟨(grows_of_run ((indicator_undoable _ _).bind fun _ _ =>
      (postOr_undoable _ _ _).bind fun _ _ => .pure (Q := fun _ => True) trivial) hk).1, j, by omega, hadd⟩

end Tails

end Lowering

/-- A reading keeps every node that was in the arena. -/
theorem ReadsAs.getElem? {b b' : Builder ERat} {a i : Nat} {x : Reading} {n : Node ERat}
    (h : ReadsAs b b' a x) (hn : b.nodes[i]? = some n) : b'.nodes[i]? = some n := by
  obtain ⟨m, -, ⟨-, -, rfl⟩ | ⟨-, r, -, -, ⟨-, rfl⟩ | ⟨-, -, z, hnodes⟩⟩⟩ := h
  · exact hn
  · exact hn
  · have hi := (Array.getElem?_eq_some_iff.1 hn).1
    rw [hnodes, Array.getElem?_push_lt hi]
    exact (Array.getElem?_eq_getElem hi).symm.trans hn

namespace Builder

variable {b b₁ : Builder ERat} {val : Nat → ℚ} {a c id : Nat} {x y : Reading} {n m : Node ERat}
  {e : Encoding} {top : Bool}

theorem Sound.of_cons_reading {p : Nat × Nat}
    (h : ({ b with readings := p :: b.readings } : Builder ERat).Sound) : b.Sound :=
  { h with readings := fun q hq => h.readings q (List.mem_cons_of_mem _ hq) }

/-- Pushing the node `a ≠ 0` of an operand of the arena keeps a builder lowerable. -/
theorem Lowerable.pushReading (h : b.Lowerable) (ha : a < b.nodes.size) :
    (b.pushNode (readingNode a)).2.Lowerable := by
  refine h.of_step (.pushReading a) ((Grows.refl b).pushNode _)
    (h.sound.pushNode (fun c hc => ?_) rfl) (fun j n hn => ?_) (h.indicators.push rfl)
  · simp only [readingNode, Kind.children, List.mem_singleton] at hc
    exact hc ▸ ha
  · simp only [pushNode, Array.getElem?_push] at hn
    split_ifs at hn
    · cases hn
      exact Node.conditionShape_of_none rfl
    · exact h.shapes j n hn

/-! ### Readings -/

/-- The reading `x` of node `a` is an encoded node that `val` gives the truth value of `a`: `1`
when `a` is not `0`, else `0`. -/
def ReadsBit (b : Builder ERat) (val : Nat → ℚ) (a : Nat) (x : Reading) : Prop :=
  ∃ r, x = .node r ∧ b.Encoded r ∧ val r = (ofBool (decide (val a ≠ 0))).toRat

/-- At a point of a sound builder that reads `val`, a reading is finite and takes the truth value
of its operand. -/
theorem ReadsBit.value (h : b.ReadsBit val a x) (hs : b.Sound) {W : Array ERat}
    (hW : b.model.Point W) (hR : b.Reads val W) :
    x.FiniteAt b.nodes W ∧ x.value b.nodes W = (ofBool (decide (val a ≠ 0))).toRat := by
  obtain ⟨r, rfl, hr, hval⟩ := h
  refine ⟨fun v hv => ?_, (hR r hr).trans hval⟩
  obtain ⟨w, hw, -⟩ := hW.columns v _ (Array.getElem?_eq_getElem (hs.columnOf_lt hr hv))
  exact ⟨w, hw⟩

theorem ReadsBit.mono (h : b.ReadsBit val a x) (hg : b.Grows b₁) : b₁.ReadsBit val a x := by
  obtain ⟨r, hx, hr, hval⟩ := h
  exact ⟨r, hx, hg.encoded_mono hr, hval⟩

/-- An encoded Boolean node takes its own truth value. -/
theorem Consistent.readsBit_self (hval : b.Consistent val) (hm : b.nodes[a]? = some m)
    (he : m.encoding.isSome) (hbool : m.isBoolean = true) :
    val a = (ofBool (decide (val a ≠ 0))).toRat := by
  have henc := hval.encloses hm he
  simp only [Node.isBoolean, Bool.and_eq_true, Bool.not_eq_true', decide_eq_true_eq] at hbool
  obtain ⟨⟨hc, hlo⟩, hhi⟩ := hbool
  rw [hc] at henc
  rcases henc.eq_zero_or_one hlo hhi with h01 | h01 <;> simp [h01]

/-- An encoded node `a ≠ 0` takes the truth value of `a`. -/
theorem Consistent.readsBit_ne (hval : b.Consistent val) {r : Nat} (hm : b.nodes[r]? = some m)
    (hk : m.kind = .rel .ne a (.const Scalar.zero)) (he : m.encoding.isSome) :
    val r = (ofBool (decide (val a ≠ 0))).toRat := by
  rw [(hval.denotes hm he).eq_ite (by rw [hk]; rfl), hk, toRat_ofBool]
  by_cases h0 : val a = 0 <;> simp [Kind.Holds, Rel.Holds, Operand.denote, h0, zero_eq_fin]

/-- Reading an encoded node of a lowerable builder keeps it lowerable and is a faithful step that
asserts nothing; the node read takes the truth value of the operand. -/
theorem Faithful.reading (hctx : b.Lowerable) (ha : b.Encoded a)
    (h : (reading a).run b = .ok x b₁) :
    b₁.Lowerable ∧ b.Grows b₁ ∧
      ∀ val, b₁.Consistent val → Faithful val b b₁ True ∧ b₁.ReadsBit val a x := by
  obtain ⟨-, hs₁, -⟩ := reading_sustains (Stable.encoded a) (fun _ h => h) b x b₁ hctx.sound ha h
  have hg := (grows_of_run (reading_undoable a) h).1
  have hk := reading_keepsNodes a b x b₁ h
  obtain ⟨m, hm, ⟨hbool, rfl, rfl⟩ | ⟨hbool, r, hx, -, hcase⟩⟩ := reading_spec h
  · -- a Boolean operand is read as itself
    refine ⟨hctx, hg, fun val hval => ⟨Faithful.refl _, a, rfl, ha, ?_⟩⟩
    obtain ⟨m', hm', he⟩ := ha
    rw [hm, Option.some.injEq] at hm'
    subst hm'
    exact hval.readsBit_self hm he hbool
  rcases hcase with ⟨hr, rfl⟩ | ⟨hr, -, -⟩
  · -- a cached reading is a node `a ≠ 0` encoded already
    subst hx
    obtain ⟨m', hm', hk', he⟩ := hctx.sound.readings (a, r) (mem_of_lookup_eq_some hr)
    exact ⟨hctx, hg, fun val hval =>
      ⟨Faithful.refl _, r, rfl, ⟨m', hm', he⟩, hval.readsBit_ne hm' hk' he⟩⟩
  -- a reading missing from the cache: the node `a ≠ 0` is pushed, lowered nested and cached
  obtain ⟨e, b₃, hrun, rfl, rfl⟩ := reading_run_fresh hm hbool hr h
  have hlt : a < b.nodes.size := (Array.getElem?_eq_some_iff.1 hm).1
  have hctxp := hctx.pushReading hlt
  have hgp : b.Grows (b.pushNode (readingNode a)).2 := (Grows.refl b).pushNode _
  have hNp : (b.pushNode (readingNode a)).2.nodes[b.nodes.size]? = some (readingNode a) := by
    simp [pushNode]
  obtain ⟨expr, b', hd, hrel⟩ := run_bind_ok hrun
  obtain ⟨z, rfl⟩ := encodeRel_nested_column hrel
  have hg₃ := (grows_of_run ((difference_undoable _ _ _).bind fun _ _ =>
    encodeRel_undoable _ _ _ _) hrun).1
  obtain ⟨j, -, hadd⟩ := ((difference_addsBinaries _ _ _).bind fun _ =>
    encodeRel_addsBinaries _ _ _ _) _ _ _ hrun
  have hN₃ : b₃.nodes[b.nodes.size]? = some (readingNode a) := hadd.nodes ▸ hNp
  have hidN := unencoded_of_getElem? hNp rfl
  have hs₃ : (b₃.encodeAs b.nodes.size (.column z)).Sound := Sound.of_cons_reading hs₁
  -- the pushed node carries its indicator, every other node its old encoding
  have hshapes : ∀ (j : Nat) (n : Node ERat),
      (b₃.encodeAs b.nodes.size (.column z)).nodes[j]? = some n → n.ConditionShape :=
    shapes_encodeAs (fun j n hn => hctxp.shapes j n (hadd.nodes ▸ hn))
      fun n hn _ => .inr ⟨by rw [hN₃, Option.some.injEq] at hn; subst hn; rfl, z, rfl⟩
  -- the indicator is the column the relation adds first, a binary over `[0, 1]`
  have hind : (b₃.encodeAs b.nodes.size (.column z)).IndicatorColumns := by
    refine (hctxp.indicators.of_nodes hadd.nodes fun v c hc => hg₃.getElem?_columns hc).encodeAs
      fun n v _ _ hv => ?_
    obtain ⟨z', hz, hle⟩ := difference_encodeRel_nested_fresh hrun
    cases hv
    cases hz
    exact hadd.indicator hle (hs₃.columns _ _ _ (getElem?_encodeAs_self hN₃) rfl)
  refine ⟨hctx.of_step hk hg hs₁ hshapes hind, hg, fun val hval => ⟨?_, b.nodes.size, rfl,
    ⟨_, getElem?_encodeAs_self hN₃, rfl⟩, hval.readsBit_ne (getElem?_encodeAs_self hN₃) rfl rfl⟩⟩
  -- pushing the node encodes nothing; lowering it asserts nothing nested
  have hf₁ : Faithful val b (b.pushNode (readingNode a)).2 True :=
    Faithful.pushNode_none hctx.sound rfl
  have hf₂ := Faithful.relation hctxp hNp rfl rfl hrun (d := 0) (by simp [zero_eq_fin])
    (hgp.encoded_mono ha) ⟨0, by simp [zero_eq_fin]⟩
    (by simp [readingNode, Kind.Holds, Operand.denote, zero_eq_fin]) hs₃ hval
  have hf : Faithful val b (b₃.encodeAs b.nodes.size (.column z)) True :=
    (hf₁.trans (hg₃.encodeAs hidN _) hctxp.sound hf₂).of_iff (by simp)
  -- caching the reading changes neither the arena nor the model
  exact hf.congr_right rfl rfl

/-! ### Connectives -/

/-- The rows of a connective `f` on readings `x` and `y` of nodes `a` and `c`, added for the
unencoded node `id` of a lowerable builder with at most one binary, are a faithful step to every
`val` under which the node's condition is `f` of the truth values of `a` and `c`. -/
theorem Faithful.logicRows (hctx : b.Lowerable) (hn : b.nodes[id]? = some n)
    (hnone : n.encoding = none) (hcond : n.kind.isCondition = true) {f : Bool → Bool → Bool}
    (hholds : n.kind.Holds val ↔ f (decide (val a ≠ 0)) (decide (val c ≠ 0)) = true)
    (hx : b.ReadsBit val a x) (hy : b.ReadsBit val c y) (hrows : LogicRows b b₁ e top f x y)
    {j : Nat} (hadd : b.AddsBinaries b₁ j) (hj : j ≤ 1) (hg : b.Grows b₁)
    (hs₂ : (b₁.encodeAs id e).Sound) (hval : (b₁.encodeAs id e).Consistent val) :
    Faithful val b (b₁.encodeAs id e) (top = true → n.kind.Holds val) := by
  have hid := unencoded_of_getElem? hn hnone
  have hn₁ : b₁.nodes[id]? = some n := hadd.nodes ▸ hn
  have hden := hval.denotes (getElem?_encodeAs_self hn₁) rfl
  have hk₁ := Kind.ne_view_of_isCondition hcond
  -- at a point of `b` that reads `val`, the readings take the truth values of the operands
  have hread : ∀ {W : Array ERat}, b.model.Point W → b.Reads val W →
      (x.FiniteAt b.nodes W ∧ x.value b.nodes W = (ofBool (decide (val a ≠ 0))).toRat) ∧
        (y.FiniteAt b.nodes W ∧ y.value b.nodes W = (ofBool (decide (val c ≠ 0))).toRat) :=
    fun hW hR => ⟨hx.value hctx.sound hW hR, hy.value hctx.sound hW hR⟩
  -- the rows added hold at every point of the grown model
  have hadm : ∀ {W : Array ERat}, b₁.model.Point W → AddedRowsAdmit b b₁ W :=
    fun hW R hR => hW.rows R (List.mem_of_mem_drop hR)
  -- a point of `b` of its size, followed by a bit, reads as it did
  have hext : ∀ {W : Array ERat} (z : Bool), W.size = b.model.columns.size → b.model.Point W →
      b.Reads val W → AgreeOn b.model.columns.size W (pushBools W [z]) ∧
        b.model.Point (pushBools W [z]) ∧ b.Reads val (pushBools W [z]) := by
    intro W z hsize hW hR
    have hWU : AgreeOn b.model.columns.size W (pushBools W [z]) := by
      rw [← hsize]
      exact agreeOn_pushBools W _
    exact ⟨hWU, hW.congr_of_sound hctx.sound hWU, hR.agree hctx.sound hWU⟩
  cases top with
  | true =>
    obtain ⟨rfl, hiff⟩ := hrows.1 rfl
    have hone := hden.2 hcond
    refine Faithful.encodeAs hctx.sound hg hadd.nodes hid hs₂ (fun W hW hR _ => ?_)
      (fun W hsize hW hR hA => ?_)
    · obtain ⟨⟨hxf, hxv⟩, hyf, hyv⟩ := hread (hg.point hW) hR
      have hh := hholds.2 ((hiff W _ _ hxf hyf hxv hyv).1 (hadm hW))
      exact ⟨(evalNode_encodeAs_posted hn₁ hk₁ W).trans (hone.2 hh).symm, fun _ => hh⟩
    · obtain ⟨hWU, hU, hRU⟩ := hext false hsize hW hR
      obtain ⟨⟨hxf, hxv⟩, hyf, hyv⟩ := hread hU hRU
      exact ⟨_, hWU, hadd.fits_pushBools hsize (by simpa using hj),
        (hiff _ _ _ hxf hyf hxv hyv).2 (hholds.1 (hA rfl)),
        (evalNode_encodeAs_posted hn₁ hk₁ _).trans (hone.2 (hA rfl)).symm⟩
  | false =>
    obtain ⟨rfl, hiff⟩ := hrows.2 rfl
    have hone := hden.eq_ite hcond
    have hval_ite : (ofBool (f (decide (val a ≠ 0)) (decide (val c ≠ 0)))).toRat = val id := by
      rw [hone]
      exact toRat_ofBool_eq_ite hholds.symm
    refine Faithful.encodeAs hctx.sound hg hadd.nodes hid hs₂
      (fun W hW hR _ => ⟨?_, fun h => by cases h⟩) (fun W hsize hW hR _ => ?_)
    · -- the indicator, a value in `[0, 1]`, is the connective on the readings
      obtain ⟨⟨hxf, hxv⟩, hyf, hyv⟩ := hread (hg.point hW) hR
      have hlt := hs₂.columns id _ _ (getElem?_encodeAs_self hn₁) rfl
      have hc := Array.getElem?_eq_getElem hlt
      obtain ⟨t, ht, hl, hh, -⟩ := hW.columns _ _ hc
      obtain ⟨-, hlo, hhi⟩ := hadd.new_column le_rfl hc
      rw [hlo, zero_eq_fin, fin_le_fin] at hl
      rw [hhi, one_eq_fin, fin_le_fin] at hh
      have hteq := (hiff W _ _ t hxf hyf hxv hyv ht hl hh).1 (hadm hW)
      rw [evalNode_encodeAs_column hn₁ hk₁, ht, toRat_fin, hteq, hval_ite]
    · -- the indicator set to the connective on the truth values
      obtain ⟨hWU, hU, hRU⟩ := hext (f (decide (val a ≠ 0)) (decide (val c ≠ 0))) hsize hW hR
      obtain ⟨⟨hxf, hxv⟩, hyf, hyv⟩ := hread hU hRU
      have hbit : (pushBools W [f (decide (val a ≠ 0)) (decide (val c ≠ 0))]).getD
          b.model.columns.size Scalar.zero = ofBool (f (decide (val a ≠ 0)) (decide (val c ≠ 0))) := by
        rw [← hsize, ← Nat.add_zero W.size, getD_pushBools_of_lt W _ (by simp)]
        rfl
      refine ⟨_, hWU, hadd.fits_pushBools hsize (by simpa using hj), ?_, ?_⟩
      · refine (hiff _ _ _ _ hxf hyf hxv hyv hbit ?_ ?_).2 rfl <;>
          cases f (decide (val a ≠ 0)) (decide (val c ≠ 0)) <;> simp
      · rw [evalNode_encodeAs_column hn₁ hk₁, hbit, hval_ite]

/-- Reading two encoded nodes in turn keeps a lowerable builder lowerable and is a faithful step
that asserts nothing; both readings take the truth values of their operands. -/
theorem Faithful.readingPair {b₂ : Builder ERat} (hctx : b.Lowerable) (ha : b.Encoded a)
    (hc : b.Encoded c) (hx : (Lowering.reading a).run b = .ok x b₁)
    (hy : (Lowering.reading c).run b₁ = .ok y b₂) :
    b₂.Lowerable ∧ b.Grows b₂ ∧
      ∀ val, b₂.Consistent val → Faithful val b b₂ True ∧ b₂.ReadsBit val a x ∧
        b₂.ReadsBit val c y := by
  obtain ⟨hctx₁, hg₁, hread₁⟩ := Faithful.reading hctx ha hx
  obtain ⟨hctx₂, hg₂, hread₂⟩ := Faithful.reading hctx₁ (hg₁.encoded_mono hc) hy
  refine ⟨hctx₂, hg₁.trans hg₂, fun val hval => ?_⟩
  obtain ⟨hf₂, hbit₂⟩ := hread₂ val hval
  obtain ⟨hf₁, hbit₁⟩ := hread₁ val (hg₂.consistent hval)
  exact ⟨(hf₁.trans hg₂ hctx₁.sound hf₂).of_iff (by simp), hbit₁.mono hg₂, hbit₂⟩

/-- A negation of an encoded node is lowered faithfully: its rows compute `!a` on the reading of
`a`. -/
theorem Faithful.not (hctx : b.Lowerable) (hn : b.nodes[id]? = some n)
    (hnone : n.encoding = none) (hk : n.kind = .not a) (hops : ∀ c ∈ n.kind.children, b.Encoded c)
    (h : (encodeKind id n.kind top).run b = .ok e b₁) (hs₂ : (b₁.encodeAs id e).Sound)
    (hval : (b₁.encodeAs id e).Consistent val) :
    Faithful val b (b₁.encodeAs id e) (top = true → n.kind.Holds val) := by
  have hcond : n.kind.isCondition = true := by rw [hk]; rfl
  have hholds : n.kind.Holds val ↔ (!decide (val a ≠ 0)) = true := by
    rw [hk]
    simp [Kind.Holds]
  rw [hk] at h hops
  obtain ⟨x, b₂, hx, -⟩ := run_bind_ok h
  obtain ⟨hctx₂, hg₂, hread⟩ := Faithful.reading hctx (hops a (by simp [Kind.children])) hx
  obtain ⟨hg, j, hj, hadd⟩ := encodeNot_tail h hx
  have hn₂ : b₂.nodes[id]? = some n := (reading_spec hx).getElem? hn
  have hid₂ := unencoded_of_getElem? hn₂ hnone
  obtain ⟨hf₁, hbit⟩ := hread val ((hg.encodeAs hid₂ e).consistent hval)
  have hf₂ := Faithful.logicRows hctx₂ hn₂ hnone hcond hholds hbit hbit
    (encodeNot_logicRows hctx.sound.children (hctx.finiteScales.readsFinitely _) h hx)
    hadd hj hg hs₂ hval
  exact (hf₁.trans (hg.encodeAs hid₂ e) hctx₂.sound hf₂).of_iff (by simp)

/-- A conjunction of encoded nodes is lowered faithfully. -/
theorem Faithful.and (hctx : b.Lowerable) (hn : b.nodes[id]? = some n)
    (hnone : n.encoding = none) (hk : n.kind = .and a c)
    (hops : ∀ c ∈ n.kind.children, b.Encoded c) (h : (encodeKind id n.kind top).run b = .ok e b₁)
    (hs₂ : (b₁.encodeAs id e).Sound) (hval : (b₁.encodeAs id e).Consistent val) :
    Faithful val b (b₁.encodeAs id e) (top = true → n.kind.Holds val) := by
  have hcond : n.kind.isCondition = true := by rw [hk]; rfl
  have hholds : n.kind.Holds val ↔ (decide (val a ≠ 0) && decide (val c ≠ 0)) = true := by
    rw [hk]
    simp [Kind.Holds]
  rw [hk] at h hops
  obtain ⟨x, b₂, hx, hk₂⟩ := run_bind_ok h
  obtain ⟨y, b₃, hy, -⟩ := run_bind_ok hk₂
  obtain ⟨hctx₃, hg₃, hread⟩ := Faithful.readingPair hctx (hops a (by simp [Kind.children]))
    (hops c (by simp [Kind.children])) hx hy
  obtain ⟨hg, j, hj, hadd⟩ := encodeAnd_tail h hx hy
  have hn₃ : b₃.nodes[id]? = some n := (reading_spec hy).getElem? ((reading_spec hx).getElem? hn)
  have hid₃ := unencoded_of_getElem? hn₃ hnone
  obtain ⟨hf₁, hbitx, hbity⟩ := hread val ((hg.encodeAs hid₃ e).consistent hval)
  have hf₂ := Faithful.logicRows hctx₃ hn₃ hnone hcond hholds hbitx hbity
    (encodeAnd_logicRows hctx.sound.children
      (hctx.finiteScales.readsFinitely _) (hctx.finiteScales.readsFinitely _) h hx hy)
    hadd hj hg hs₂ hval
  exact (hf₁.trans (hg.encodeAs hid₃ e) hctx₃.sound hf₂).of_iff (by simp)

/-- A disjunction of encoded nodes is lowered faithfully. -/
theorem Faithful.or (hctx : b.Lowerable) (hn : b.nodes[id]? = some n)
    (hnone : n.encoding = none) (hk : n.kind = .or a c)
    (hops : ∀ c ∈ n.kind.children, b.Encoded c) (h : (encodeKind id n.kind top).run b = .ok e b₁)
    (hs₂ : (b₁.encodeAs id e).Sound) (hval : (b₁.encodeAs id e).Consistent val) :
    Faithful val b (b₁.encodeAs id e) (top = true → n.kind.Holds val) := by
  have hcond : n.kind.isCondition = true := by rw [hk]; rfl
  have hholds : n.kind.Holds val ↔ (decide (val a ≠ 0) || decide (val c ≠ 0)) = true := by
    rw [hk]
    simp [Kind.Holds]
  rw [hk] at h hops
  obtain ⟨x, b₂, hx, hk₂⟩ := run_bind_ok h
  obtain ⟨y, b₃, hy, -⟩ := run_bind_ok hk₂
  obtain ⟨hctx₃, hg₃, hread⟩ := Faithful.readingPair hctx (hops a (by simp [Kind.children]))
    (hops c (by simp [Kind.children])) hx hy
  obtain ⟨hg, j, hj, hadd⟩ := encodeOr_tail h hx hy
  have hn₃ : b₃.nodes[id]? = some n := (reading_spec hy).getElem? ((reading_spec hx).getElem? hn)
  have hid₃ := unencoded_of_getElem? hn₃ hnone
  obtain ⟨hf₁, hbitx, hbity⟩ := hread val ((hg.encodeAs hid₃ e).consistent hval)
  have hf₂ := Faithful.logicRows hctx₃ hn₃ hnone hcond hholds hbitx hbity
    (encodeOr_logicRows hctx.sound.children
      (hctx.finiteScales.readsFinitely _) (hctx.finiteScales.readsFinitely _) h hx hy)
    hadd hj hg hs₂ hval
  exact (hf₁.trans (hg.encodeAs hid₃ e) hctx₃.sound hf₂).of_iff (by simp)

end Builder

end MipLowering
