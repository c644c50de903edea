import MipLowering.Proofs.Lowering.FaithfulSteps
import MipLowering.Proofs.Lowering.NoOverlap

/-!
# Relations and scheduling pairs, lowered faithfully

A relation `lhs rel rhs` and a precedence `first + d ≤ second` are lowered on the fragment
`a - rhs + d` of their operands, folded through the operands' encodings; a no-overlap pair on the
two fragments of its orderings. Over an integer model these fragments take integer values at every
point, so no value falls in the gap `(0, sep)` that the separation of a strict relation keeps out.
The indicator of a nested relation is then pinned to the truth of the relation, and the rows of a
relation asserted at top level hold, for some value of its side binary, exactly when it does.

Each is a faithful step (`Builder.Faithful`) to every assignment of values that the builder it
leads to is consistent with: `Builder.Faithful.relation` for the shared fragment, and from it
`Builder.Faithful.rel` and `Builder.Faithful.precedence`; `Builder.Faithful.noOverlap` for pairs.

## Main definitions

* `MipLowering.Operand.Ready` — an encoded node or an integer constant.

## Main results

* `MipLowering.Lowering.difference_reads` — the value of a fragment at a point.
* `MipLowering.Builder.Faithful.relation`, `MipLowering.Builder.Faithful.noOverlap`.
-/

namespace MipLowering

open ERat Lowering

/-! ### Fragments over ready operands -/

/-- An operand that a fragment reads at a point: an encoded node, or an integer constant. -/
def Operand.Ready (b : Builder ERat) : Operand ERat → Prop
  | .node c => b.Encoded c
  | .const k => ∃ z : ℤ, k = fin z

namespace Operand.Ready

variable {b : Builder ERat} {o : Operand ERat} {val : Nat → ℚ} {V W : Array ERat}

theorem finite (h : o.Ready b) (hfin : FiniteScales b.nodes) : o.Finite b.nodes := by
  cases o with
  | node c => exact fun m n _ hn => hfin m n hn
  | const k =>
    obtain ⟨z, rfl⟩ := h
    exact ⟨_, rfl⟩

theorem columnOf_lt (h : o.Ready b) (hs : b.Sound) {v : Nat} (hv : o.ColumnOf b.nodes v) :
    v < b.model.columns.size := by
  cases o with
  | node c => exact hs.columnOf_lt h hv
  | const k => exact (hv : False).elim

/-- At an assignment that agrees with a point reading `val`, a ready operand takes its value. -/
theorem value_eq (h : o.Ready b) (hs : b.Sound) (hVW : AgreeOn b.model.columns.size V W)
    (hR : b.Reads val W) : o.value b.nodes V = o.denote val := by
  cases o with
  | node c => exact (Builder.evalNode_agree hs hVW h).trans (hR c h)
  | const k => rfl

theorem integral (h : o.Ready b) (hval : b.Consistent val) : ∃ z : ℤ, o.denote val = z := by
  cases o with
  | node c => exact hval.integral h
  | const k =>
    obtain ⟨z, rfl⟩ := h
    exact ⟨z, toRat_fin _⟩

end Operand.Ready

/-- No integer lies strictly between `0` and a separation of at most `1`. -/
theorem not_mem_gap_of_int {s t : ℚ} (hs1 : s ≤ 1) {z : ℤ} (hz : t = z) : ¬(0 < t ∧ t < s) := by
  rintro ⟨h₀, h₁⟩
  subst hz
  have : (0 : ℤ) < z := by exact_mod_cast h₀
  have : z < (1 : ℤ) := by exact_mod_cast h₁.trans_le hs1
  omega

namespace Lowering

/-- The fragment `a - rhs + d` over ready operands of a lowerable builder leaves the builder as it
is and has non-zero coefficients on columns of its model; at every assignment that agrees with a
point reading `val` on them, its value less its right-hand side is `val a + d - rhs`. -/
theorem difference_reads {b b' : Builder ERat} {a : Nat} {rhs : Operand ERat} {d : ℤ}
    {expr : Row ERat} (hctx : b.Lowerable) (ha : b.Encoded a) (hrhs : rhs.Ready b)
    (h : (difference a rhs (fin d)).run b = .ok expr b') :
    b' = b ∧ expr.NonzeroCoefs ∧ expr.OnColumns b.model.columns.size ∧ ∃ β, expr.rhs = fin β ∧
      ∀ {val : Nat → ℚ} {V W : Array ERat}, AgreeOn b.model.columns.size V W → b.Reads val W →
        expr.value V - β = val a + d - rhs.denote val := by
  have hfin := hctx.finiteScales
  obtain ⟨rfl, hm, hc, hterms, β, -, hr, hv⟩ :=
    difference_spec hctx.sound.children (fun m n _ hn => hfin m n hn) (hrhs.finite hfin) h
  refine ⟨rfl, hm.nonzeroCoefs hc, fun t ht => ?_, β, hr, fun hVW hR => ?_⟩
  · rcases hterms t ht with hcol | hcol
    · exact hctx.sound.columnOf_lt ha hcol
    · exact hrhs.columnOf_lt hctx.sound hcol
  · rw [hv, Builder.evalNode_agree hctx.sound hVW ha, hR a ha, hrhs.value_eq hctx.sound hVW hR]
    ring

end Lowering

/-! ### Relations and precedences -/

namespace Builder

variable {val : Nat → ℚ} {b b₁ : Builder ERat} {id : Nat} {n : Node ERat} {e : Encoding}
  {top : Bool}

/-- A relation `a + d rel rhs` between ready operands of a lowerable builder, lowered for its
unencoded node `id` on the fragment `a - rhs + d`, is faithful to every `val` that the builder it
leads to is consistent with: at top level it asserts the node's condition, nested it pins the
node's indicator to the truth of the condition. -/
theorem Faithful.relation (hctx : b.Lowerable) (hn : b.nodes[id]? = some n)
    (hnone : n.encoding = none) (hcond : n.kind.isCondition = true) {a : Nat}
    {rhs : Operand ERat} {shift : ERat} {rel : Rel}
    (h : (difference a rhs shift >>= fun expr => encodeRel id rel expr top).run b = .ok e b₁)
    {d : ℤ} (hshift : shift = fin d) (ha : b.Encoded a) (hrhs : rhs.Ready b)
    (hholds : n.kind.Holds val ↔ rel.Holds (val a + d) (rhs.denote val))
    (hs₂ : (b₁.encodeAs id e).Sound) (hval : (b₁.encodeAs id e).Consistent val) :
    Faithful val b (b₁.encodeAs id e) (top = true → n.kind.Holds val) := by
  subst hshift
  obtain ⟨expr, b', hdiff, hrel⟩ := run_bind_ok h
  obtain ⟨hb', hnz, hterms, β, hr, hvalue⟩ := difference_reads hctx ha hrhs hdiff
  subst b'
  have hid := unencoded_of_getElem? hn hnone
  have hg := (grows_of_run (encodeRel_undoable id rel expr top) hrel).1
  obtain ⟨j, hj, hadd⟩ := encodeRel_addsBinaries id rel expr top b e b₁ hrel
  have hn₁ : b₁.nodes[id]? = some n := hadd.nodes ▸ hn
  have hden := hval.denotes (getElem?_encodeAs_self hn₁) rfl
  have hval₀ := (hg.encodeAs hid e).consistent hval
  have hsep := separationOf_mem b expr
  -- at a point the fragment is the node's condition, shifted by an integer
  have hiff : ∀ {V W : Array ERat}, AgreeOn b.model.columns.size V W → b.Reads val W →
      (rel.Holds (expr.value V) β ↔ n.kind.Holds val) := by
    intro V W hVW hR
    have e₁ : expr.value V = val a + d + (β - rhs.denote val) := by linarith [hvalue hVW hR]
    have e₂ : rhs.denote val + (β - rhs.denote val) = β := by ring
    rw [hholds, ← Rel.holds_add_right rel (val a + d) (rhs.denote val) (β - rhs.denote val), e₂,
      ← e₁]
  have hint : ∀ {V W : Array ERat}, AgreeOn b.model.columns.size V W → b.Reads val W →
      ∃ z : ℤ, expr.value V - β = z := by
    intro V W hVW hR
    obtain ⟨za, hza⟩ := hval₀.integral ha
    obtain ⟨zr, hzr⟩ := hrhs.integral hval₀
    exact ⟨za + d - zr, by rw [hvalue hVW hR, hza, hzr]; push_cast; ring⟩
  -- so it is never in the gap of the relation, and the rows' form of the relation is the condition
  have hgap : ∀ {V W : Array ERat}, AgreeOn b.model.columns.size V W → b.Reads val W →
      ¬rel.InGap (expr.value V) β (separationOf b expr 1e-6) := fun hVW hR => by
    obtain ⟨z, hz⟩ := hint hVW hR
    exact Rel.not_inGap_of_int hsep.2 hz rel
  have hstrict : ∀ {V W : Array ERat}, AgreeOn b.model.columns.size V W → b.Reads val W →
      (rel.Strict (expr.value V) β (separationOf b expr 1e-6) ↔ n.kind.Holds val) :=
    fun hVW hR => by
      obtain ⟨z, hz⟩ := hint hVW hR
      exact (Rel.strict_iff_holds_of_int hsep.1 hsep.2 hz rel).trans (hiff hVW hR)
  cases top with
  | false =>
    simp only [Bool.false_eq_true, if_false] at hj
    obtain ⟨rfl, hrows⟩ := encodeRel_nested_spec hctx.epsilon (by norm_num) hnz hr hrel
    have hcol := evalNode_encodeAs_column (v := b.model.columns.size) hn₁
      (Kind.ne_view_of_isCondition hcond)
    have hone := hden.eq_ite hcond
    refine Faithful.encodeAs hctx.sound hg hadd.nodes hid hs₂
      (fun W hW hR _ => ⟨?_, fun h => by cases h⟩) (fun W hsize hW hR _ => ?_)
    · -- a point reads at the indicator the truth of the relation on its first columns
      have hVW := agreeOn_firstValues W b.model.columns.size
      obtain ⟨-, hz⟩ := (hrows _ (size_firstValues _ _) ((hg.point hW).within hVW hterms) _).1
        ⟨_, hadd.addedRowsAdmit_pushBits (k := 2) hj hs₂.rows hW⟩
      rw [size_firstValues, Nat.add_zero] at hz
      obtain ⟨z, hzW⟩ := hadd.bits hW _ le_rfl
        (hs₂.columns id _ _ (getElem?_encodeAs_self hn₁) rfl)
      rw [hcol, hone, ← ofBool_bitOf hzW]
      exact toRat_ofBool_eq_ite (hz.trans (hiff hVW hR))
    · -- the indicator set to the truth of the relation, the side binary as the rows ask
      have hwithin := hW.within (AgreeOn.refl _ W) hterms
      obtain ⟨yb, hyb⟩ := (hrows W hsize hwithin (decide (n.kind.Holds val))).2
        ⟨hgap (AgreeOn.refl _ W) hR, decide_eq_true_iff.trans (hiff (AgreeOn.refl _ W) hR).symm⟩
      refine ⟨pushBools W [decide (n.kind.Holds val), yb], ?_, hadd.fits_pushBools hsize
        (by simpa using hj), hyb, ?_⟩
      · rw [← hsize]
        exact agreeOn_pushBools W _
      · rw [hcol, hone, ← hsize, ← Nat.add_zero W.size, getD_pushBools_of_lt W _ (by simp)]
        exact toRat_ofBool_eq_ite decide_eq_true_iff
  | true =>
    simp only [if_true] at hj
    obtain ⟨rfl, hrows⟩ := encodeRel_top_spec hctx.epsilon hnz hr hrel
    have hpost := evalNode_encodeAs_posted hn₁ (Kind.ne_view_of_isCondition hcond)
    have hone := hden.2 hcond
    refine Faithful.encodeAs hctx.sound hg hadd.nodes hid hs₂ (fun W hW hR _ => ?_)
      (fun W hsize hW hR hA => ?_)
    · have hVW := agreeOn_firstValues W b.model.columns.size
      have hh := (hstrict hVW hR).1
        ((hrows _ (size_firstValues _ _) ((hg.point hW).within hVW hterms)).1
          ⟨_, hadd.addedRowsAdmit_pushBits (k := 1) hj hs₂.rows hW⟩)
      exact ⟨(hpost W).trans (hone.2 hh).symm, fun _ => hh⟩
    · obtain ⟨y, hy⟩ := (hrows W hsize (hW.within (AgreeOn.refl _ W) hterms)).2
        ((hstrict (AgreeOn.refl _ W) hR).2 (hA rfl))
      refine ⟨pushBools W [y], ?_, hadd.fits_pushBools hsize (by simpa using hj), hy,
        (hpost _).trans (hone.2 (hA rfl)).symm⟩
      rw [← hsize]
      exact agreeOn_pushBools W _

/-- A relation node is lowered faithfully. -/
theorem Faithful.rel (hctx : b.Lowerable) (hn : b.nodes[id]? = some n)
    (hnone : n.encoding = none) {r : Rel} {lhs : Nat} {rhs : Operand ERat}
    (hk : n.kind = .rel r lhs rhs) (hops : ∀ c ∈ n.kind.children, b.Encoded c)
    (h : (encodeKind id n.kind top).run b = .ok e b₁) (hs₂ : (b₁.encodeAs id e).Sound)
    (hval : (b₁.encodeAs id e).Consistent val) :
    Faithful val b (b₁.encodeAs id e) (top = true → n.kind.Holds val) := by
  have hint := (hctx.integer id n hn).1
  rw [hk] at h hops hint
  -- a constant on the right is an integer
  have hrhs : rhs.Ready b := by
    cases rhs with
    | node c => exact hops c (by simp [Kind.children])
    | const q => exact hint
  refine Faithful.relation hctx hn hnone (by rw [hk]; rfl) h (d := 0) (by simp [zero_eq_fin])
    (hops lhs (by cases rhs <;> simp [Kind.children])) hrhs ?_ hs₂ hval
  rw [hk]
  simp [Kind.Holds]

/-- A precedence `first + d ≤ second` is lowered faithfully, as the relation `≤` on the fragment
`first - second + d`. -/
theorem Faithful.precedence (hctx : b.Lowerable) (hn : b.nodes[id]? = some n)
    (hnone : n.encoding = none) {first second : Nat} {coefs : List Int}
    (hk : n.kind = .precedence first second coefs) (hops : ∀ c ∈ n.kind.children, b.Encoded c)
    (h : (encodeKind id n.kind top).run b = .ok e b₁) (hs₂ : (b₁.encodeAs id e).Sound)
    (hval : (b₁.encodeAs id e).Consistent val) :
    Faithful val b (b₁.encodeAs id e) (top = true → n.kind.Holds val) := by
  rw [hk] at h hops
  refine Faithful.relation hctx hn hnone (by rw [hk]; rfl) h (d := coefs[0]?.getD 0) rfl
    (hops first (by simp [Kind.children])) (hops second (by simp [Kind.children])) ?_ hs₂ hval
  rw [hk]
  exact Iff.rfl

/-! ### No-overlap pairs -/

/-- A no-overlap pair of encoded operands is lowered faithfully. At top level its rows hold, for
some value of the order binary, exactly when one of the orderings does; nested, the indicators of
the orderings read their truth values, as no integer difference falls in the gap of an ordering,
and the node's indicator reads their disjunction. -/
theorem Faithful.noOverlap (hctx : b.Lowerable) (hn : b.nodes[id]? = some n)
    (hnone : n.encoding = none) {first second : Nat} {coefs : List Int}
    (hk : n.kind = .noOverlap first second coefs) (hops : ∀ c ∈ n.kind.children, b.Encoded c)
    (h : (encodeKind id n.kind top).run b = .ok e b₁) (hs₂ : (b₁.encodeAs id e).Sound)
    (hval : (b₁.encodeAs id e).Consistent val) :
    Faithful val b (b₁.encodeAs id e) (top = true → n.kind.Holds val) := by
  have hcond : n.kind.isCondition = true := by rw [hk]; rfl
  rw [hk] at h hops
  have hfirst := hops first (by simp [Kind.children])
  have hsecond := hops second (by simp [Kind.children])
  have hid := unencoded_of_getElem? hn hnone
  have hg := (grows_of_run (encodeNoOverlap_undoable id first second coefs top) h).1
  obtain ⟨j, hj, hadd⟩ := encodeNoOverlap_addsBinaries id first second coefs top b e b₁ h
  have hn₁ : b₁.nodes[id]? = some n := hadd.nodes ▸ hn
  have hden := hval.denotes (getElem?_encodeAs_self hn₁) rfl
  have hval₀ := (hg.encodeAs hid e).consistent hval
  have hfin := hctx.finiteScales
  have hholds : n.kind.Holds val ↔ val first + (coefs[0]?.getD 0 : ℤ) ≤ val second ∨
      val second + (coefs[1]?.getD 0 : ℤ) ≤ val first := by
    rw [hk]
    exact Iff.rfl
  have hbelow : ∀ c, FiniteBelow b.nodes c := fun c m n _ hn => hfin m n hn
  -- the columns below the operands, at an assignment that agrees with a point of `b`
  have hbounds : ∀ {V W : Array ERat}, b.model.Point W → AgreeOn b.model.columns.size V W →
      ∀ v, Row.ColumnOf b.nodes first v ∨ Row.ColumnOf b.nodes second v →
        InBounds b.model.columns V v := by
    intro V W hW hVW v hv
    refine hW.inBounds hVW ?_
    rcases hv with hv | hv
    · exact hctx.sound.columnOf_lt hfirst hv
    · exact hctx.sound.columnOf_lt hsecond hv
  -- there the operands take their values, integers
  have hx : ∀ {V W : Array ERat}, AgreeOn b.model.columns.size V W → b.Reads val W →
      evalNode b.nodes V first = val first ∧ evalNode b.nodes V second = val second :=
    fun hVW hR => ⟨(evalNode_agree hctx.sound hVW hfirst).trans (hR first hfirst),
      (evalNode_agree hctx.sound hVW hsecond).trans (hR second hsecond)⟩
  have hk₁ := Kind.ne_view_of_isCondition hcond
  cases top with
  | false =>
    simp only [Bool.false_eq_true, if_false] at hj
    have hone := hden.eq_ite hcond
    refine Faithful.encodeAs hctx.sound hg hadd.nodes hid hs₂
      (fun W hW hR _ => ⟨?_, fun h => by cases h⟩) (fun W hsize hW hR _ => ?_)
    · -- a point reads at the node's indicator the disjunction of the orderings' indicators
      have hVW := agreeOn_firstValues W b.model.columns.size
      obtain ⟨rfl, before, after, -, -, hrows⟩ := encodeNoOverlap_nested_spec
        hctx.sound.children hctx.epsilon (by norm_num) (hbelow first) (hbelow second)
        (size_firstValues _ _) (hbounds (hg.point hW) hVW) h
      obtain ⟨⟨-, hzb⟩, ⟨-, hza⟩, hz⟩ :=
        (hrows _ _ _).1 (hadd.addedRowsAdmit_pushBits (k := 3) hj hs₂.rows hW)
      rw [(hx hVW hR).1, (hx hVW hR).2] at hzb hza
      simp only [size_firstValues] at hz hzb hza
      obtain ⟨z, hzW⟩ := hadd.bits hW _ (by omega)
        (hs₂.columns id _ _ (getElem?_encodeAs_self hn₁) rfl)
      rw [evalNode_encodeAs_column hn₁ hk₁, hone, ← ofBool_bitOf hzW]
      exact toRat_ofBool_eq_ite (hz.trans ((or_congr hzb hza).trans hholds.symm))
    · -- the orderings' indicators set to their truth, and the node's to their disjunction
      obtain ⟨rfl, before, after, -, -, hrows⟩ := encodeNoOverlap_nested_spec
        hctx.sound.children hctx.epsilon (by norm_num) (hbelow first) (hbelow second) hsize
        (hbounds hW (AgreeOn.refl _ W)) h
      obtain ⟨hxf, hxs⟩ := hx (AgreeOn.refl _ W) hR
      obtain ⟨zf, hzf⟩ := hval₀.integral hfirst
      obtain ⟨zs, hzs⟩ := hval₀.integral hsecond
      have hadm : AddedRowsAdmit b b₁ (pushBools W
          [decide (val first + (coefs[0]?.getD 0 : ℤ) ≤ val second),
            decide (val second + (coefs[1]?.getD 0 : ℤ) ≤ val first),
            decide (n.kind.Holds val)]) := by
        refine (hrows _ _ _).2 ⟨⟨?_, ?_⟩, ⟨?_, ?_⟩, ?_⟩
        · rw [hxf, hxs, hzf, hzs]
          exact not_mem_gap_of_int (separationOf_mem b before).2
            (z := zf + coefs[0]?.getD 0 - zs) (by push_cast; rfl)
        · rw [hxf, hxs]
          exact decide_eq_true_iff
        · rw [hxf, hxs, hzf, hzs]
          exact not_mem_gap_of_int (separationOf_mem b after).2
            (z := zs + coefs[1]?.getD 0 - zf) (by push_cast; rfl)
        · rw [hxf, hxs]
          exact decide_eq_true_iff
        · rw [decide_eq_true_iff, decide_eq_true_iff, decide_eq_true_iff]
          exact hholds
      refine ⟨_, ?_, hadd.fits_pushBools hsize (by simpa using hj), hadm, ?_⟩
      · rw [← hsize]
        exact agreeOn_pushBools W _
      · rw [evalNode_encodeAs_column hn₁ hk₁, hone, ← hsize, getD_pushBools_of_lt W _ (by simp)]
        exact toRat_ofBool_eq_ite decide_eq_true_iff
  | true =>
    simp only [if_true] at hj
    have hone := hden.2 hcond
    refine Faithful.encodeAs hctx.sound hg hadd.nodes hid hs₂ (fun W hW hR _ => ?_)
      (fun W hsize hW hR hA => ?_)
    · have hVW := agreeOn_firstValues W b.model.columns.size
      obtain ⟨rfl, hrows⟩ := encodeNoOverlap_top_spec hctx.sound.children (hbelow first)
        (hbelow second) (size_firstValues _ _) (hbounds (hg.point hW) hVW) h
      have hor := hrows.1 ⟨_, hadd.addedRowsAdmit_pushBits (k := 1) hj hs₂.rows hW⟩
      rw [(hx hVW hR).1, (hx hVW hR).2] at hor
      have hh := hholds.2 hor
      exact ⟨(evalNode_encodeAs_posted hn₁ hk₁ W).trans (hone.2 hh).symm, fun _ => hh⟩
    · obtain ⟨rfl, hrows⟩ := encodeNoOverlap_top_spec hctx.sound.children (hbelow first)
        (hbelow second) hsize (hbounds hW (AgreeOn.refl _ W)) h
      obtain ⟨hxf, hxs⟩ := hx (AgreeOn.refl _ W) hR
      obtain ⟨o, ho⟩ := hrows.2 (by rw [hxf, hxs]; exact hholds.1 (hA rfl))
      refine ⟨pushBools W [o], ?_, hadd.fits_pushBools hsize (by simpa using hj), ho,
        (evalNode_encodeAs_posted hn₁ hk₁ _).trans (hone.2 (hA rfl)).symm⟩
      rw [← hsize]
      exact agreeOn_pushBools W _

end Builder

end MipLowering
