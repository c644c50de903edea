import MipLowering.Proofs.Lowering.FaithfulColumns

/-!
# Flow constraints, lowered faithfully

A flow constraint, asserted at top level, lists the domain of each of its variables and adds a
binary per variable and value, with rows that hold exactly when the binaries indicate the values
of the variables and the values meet the occurrence condition (`Lowering.flowVars_admit_iff`).

Its lowering is faithful when the domains hold every value the variables take. They do as long
as the bounds on the chains of views below the variables lie within `±(2^63 - 1)`, where the
casts of the domain values to 64-bit integers are exact (`Builder.FlowDomainsFit`); beyond it the
cast saturates and a view's domain can miss its values. At a point of the grown model the rows
then give the occurrence condition on the values of the variables; and a point of `b` where the
condition holds extends by the indicators of the values (`Builder.Faithful.flow`).

## Main definitions

* `MipLowering.Builder.FlowDomainsFit` — the bounds below the variables of a flow constraint.

## Main results

* `MipLowering.getD_pushBools_flatMap` — bits pushed per variable and cell, read at their columns.
* `MipLowering.Builder.Lowerable.derivedAlong` — the values a consistent `val` gives below an
  encoded node are derived along it.
* `MipLowering.Builder.Faithful.flow`.
-/

namespace MipLowering

open ERat Lowering

/-- A map through `Except` that succeeds maps each entry to its image. -/
theorem mapM_ok_zip {β γ ε : Type} {f : β → Except ε γ} :
    ∀ {l : List β} {ls : List γ}, l.mapM f = .ok ls → ∀ p ∈ l.zip ls, f p.1 = .ok p.2
  | [], ls, _, p, hp => by simp at hp
  | x :: l, ls, h, p, hp => by
    rw [List.mapM_cons] at h
    cases hx : f x with
    | error e =>
      rw [hx] at h
      cases h
    | ok y =>
      cases hl : l.mapM f with
      | error e =>
        rw [hx, hl] at h
        cases h
      | ok ys =>
        rw [hx, hl] at h
        cases h
        rcases List.mem_cons.1 hp with rfl | hp
        · exact hx
        · exact mapM_ok_zip hl p hp

/-- Bits pushed after `W`, one per cell of each variable and in the order of the cells, read back
at the columns of the cells when the cells take the columns after those of `W` in order. -/
theorem getD_pushBools_flatMap (W : Array ERat) {ys : List Nat} {cells : List (List (Int × Nat))}
    (hlen : ys.length = cells.length)
    (hpos : cells.flatten.map Prod.snd = List.range' W.size cells.flatten.length)
    (bit : Nat → Int → Bool) :
    ∀ p ∈ ys.zip cells, ∀ q ∈ p.2,
      (pushBools W ((ys.zip cells).flatMap fun p => p.2.map fun q => bit p.1 q.1)).getD q.2
        Scalar.zero = ofBool (bit p.1 q.1) := by
  -- each cell labelled with its variable, in the order of the cells
  let L := (ys.zip cells).flatMap fun p => p.2.map fun q => (p.1, q)
  have hflat : L.map Prod.snd = cells.flatten := by
    rw [List.map_flatMap]
    simp only [List.map_map, Function.comp_def, List.map_id']
    rw [List.flatMap_def, List.map_snd_zip hlen.ge]
  have hbits : ((ys.zip cells).flatMap fun p => p.2.map fun q => bit p.1 q.1) =
      L.map fun t => bit t.1 t.2.1 := by
    rw [List.map_flatMap]
    simp only [List.map_map, Function.comp_def]
  intro p hp q hq
  have hmem : (p.1, q) ∈ L := List.mem_flatMap.2 ⟨p, hp, List.mem_map.2 ⟨q, hq, rfl⟩⟩
  obtain ⟨i, hi, hLi⟩ := List.getElem_of_mem hmem
  have hi' : i < cells.flatten.length := by rw [← hflat, List.length_map]; exact hi
  -- the cell is the `i`-th of the flattened cells, at column `W.size + i`
  have hq₂ : q.2 = W.size + i := by
    have hcell : cells.flatten[i] = q := by
      simp only [← hflat, List.getElem_map, hLi]
    have h := congrArg (fun l => l[i]?) hpos
    simp only [List.getElem?_map, List.getElem?_eq_getElem hi', hcell, Option.map_some,
      List.getElem?_range' hi', Option.some.injEq, one_mul] at h
    exact h
  rw [hbits, hq₂, getD_pushBools_of_lt W _ (by simpa using hi)]
  simp [hLi]

/-- Pushing bits keeps every value finite. -/
theorem finite_pushBools {W : Array ERat} (hW : ∀ v < W.size, ∃ w, W.getD v Scalar.zero = fin w)
    (zs : List Bool) : ∀ v, ∃ w, (pushBools W zs).getD v Scalar.zero = fin w := by
  induction zs generalizing W with
  | nil =>
    intro v
    by_cases hv : v < W.size
    · exact hW v hv
    · refine ⟨0, ?_⟩
      rw [show pushBools W [] = W from rfl, Array.getD_eq_getD_getElem?,
        Array.getElem?_eq_none (not_lt.1 hv)]
      rfl
  | cons z zs ih =>
    rw [pushBools_cons]
    refine ih fun v hv => ?_
    rcases Nat.lt_succ_iff_lt_or_eq.1 (by simpa using hv) with hlt | rfl
    · rw [getD_push_of_lt hlt]
      exact hW v hlt
    · rw [getD_push_size]
      cases z <;> exact ⟨_, rfl⟩

/-- The first values of a point read every column finite, and `0` beyond. -/
theorem FlatModel.Point.finite_firstValues {m : FlatModel ERat} {W : Array ERat} (hW : m.Point W) :
    ∀ v, ∃ w, (firstValues W m.columns.size).getD v Scalar.zero = fin w := by
  intro v
  by_cases hv : v < m.columns.size
  · obtain ⟨w, hw, -⟩ := hW.columns v _ (Array.getElem?_eq_getElem hv)
    exact ⟨w, (agreeOn_firstValues W _ v hv).trans hw⟩
  · refine ⟨0, ?_⟩
    rw [Array.getD_eq_getD_getElem?,
      Array.getElem?_eq_none (by rw [size_firstValues]; exact not_lt.1 hv)]
    rfl

/-- Integer data give a sum a finite offset. -/
theorem Kind.IntegerData.offsetFinite {k : Kind ERat} (h : k.IntegerData) : k.OffsetFinite := by
  cases k with
  | sum vars weights offset =>
    obtain ⟨z, rfl⟩ := h.1
    rfl
  | _ => trivial

namespace Builder

variable {b b₁ : Builder ERat} {val : Nat → ℚ} {id : Nat} {n : Node ERat} {e : Encoding}
  {top : Bool}

/-- The bounds on the chains of views below the variables `vars` lie within `±(2^63 - 1)`. -/
def FlowDomainsFit (b : Builder ERat) (vars : List Nat) : Prop :=
  ∀ x ∈ vars, ∀ j m, DomainPath b.nodes x j → b.nodes[j]? = some m →
    BoundsBelow m.lower m.upper (2 ^ 63 - 1)

/-- Below an encoded node of a sound builder, along the values it reads, every node is encoded. -/
theorem Sound.encoded_of_valueBelow (hs : b.Sound) {a j : Nat} (hj : ValueBelow b.nodes a j)
    (ha : b.Encoded a) : b.Encoded j := by
  induction hj with
  | refl => exact ha
  | operand hn hc _ ih =>
    obtain ⟨n', hn', he⟩ := ha
    rw [hn, Option.some.injEq] at hn'
    subst hn'
    exact ih (hs.operands _ _ hn he _ (Kind.mem_children_of_mem_valueOperands hc))

/-- Under a `val` a lowerable builder is consistent with, the values below an encoded node are
derived along it. -/
theorem Lowerable.derivedAlong (hctx : b.Lowerable) (hval : b.Consistent val) {x : Nat}
    (hx : b.Encoded x) : b.DerivedAlong val x :=
  ⟨fun j m _ hm => hctx.derived j m hm fun _ _ => List.not_mem_nil,
    fun j m _ hm => (hctx.integer j m hm).offsetFinite,
    fun j m hj hm => by
      obtain ⟨m', hm', he⟩ := hctx.sound.encoded_of_valueBelow hj hx
      rw [hm, Option.some.injEq] at hm'
      subst hm'
      exact (hval.denotes hm he).1⟩

/-- A flow constraint over encoded variables whose domains fit is lowered faithfully, and only at
top level: at a point of the grown model its rows give the occurrence condition on the values of
the variables, and a point of `b` where the condition holds extends by the indicators of the
values, each in its variable's domain. -/
theorem Faithful.flow (hctx : b.Lowerable) (hn : b.nodes[id]? = some n)
    (hnone : n.encoding = none) {kind : FlowKind} {vars : List Nat} {values lb ub : List Int}
    (hk : n.kind = .flow kind vars values lb ub) (hops : ∀ c ∈ n.kind.children, b.Encoded c)
    (hfit : b.FlowDomainsFit vars) (h : (encodeKind id n.kind top).run b = .ok e b₁)
    (hs₂ : (b₁.encodeAs id e).Sound) (hval : (b₁.encodeAs id e).Consistent val) :
    Faithful val b (b₁.encodeAs id e) (top = true → n.kind.Holds val) := by
  have hg := (grows_of_run (encodeKind_undoable id n.kind top) h).1
  have hcond : n.kind.isCondition = true := by rw [hk]; rfl
  have hk₁ := Kind.ne_view_of_isCondition hcond
  have hholds : n.kind.Holds val ↔ FlowHolds kind (values.zip (lb.zip ub)) (vars.map val) := by
    rw [hk]
    exact Iff.rfl
  have hub := (hctx.integer id n hn).2.2 kind vars values lb ub hk
  have hid := unencoded_of_getElem? hn hnone
  have hval₀ := (hg.encodeAs hid e).consistent hval
  rw [hk] at h hops
  -- a nested flow constraint is refused; at top level it is posted
  unfold encodeKind at h
  cases top with
  | false =>
    obtain ⟨_, _, hthrow, -⟩ := run_bind_ok h
    cases hthrow
  | true =>
  obtain ⟨_, b₂, hflow, h⟩ := run_bind_ok h
  cases h
  obtain ⟨ds, ts, hds, hvars, hdom, hpos, hadd, hts, hrows⟩ := encodeFlow_spec hflow
    hctx.sound.children hctx.finiteScales
  have hsem := fun W hW hbin => (hrows W hW).trans
    (flowVars_admit_iff hts hvars hdom (domains_nodup hctx.valuesNodup hds) hub hW hbin)
  replace hdom : (ts.map FlowVar.cells).map (List.map Prod.fst) = ds := by
    rw [List.map_map]
    exact hdom
  generalize ts.map FlowVar.cells = cells at hdom hpos hadd hsem
  have hlen : vars.length = cells.length := by
    rw [← length_of_mapM_ok hds, ← hdom, List.length_map]
  have hn₁ : b₁.nodes[id]? = some n := hadd.nodes ▸ hn
  have hone := (hval.denotes (getElem?_encodeAs_self hn₁) rfl).2 hcond
  -- the cells of the new binaries lie after the columns of `b`
  have hcells : ∀ q ∈ cells.flatten, b.model.columns.size ≤ q.2 ∧
      q.2 < b.model.columns.size + cells.flatten.length := by
    intro q hq
    have hmem : q.2 ∈ cells.flatten.map Prod.snd := List.mem_map_of_mem hq
    rw [hpos, List.mem_range'_1] at hmem
    exact hmem
  refine Faithful.encodeAs hctx.sound hg hadd.nodes hid hs₂ (fun W hW hR _ => ?_)
    (fun W hsize hW hR hA => ?_)
  · -- the rows at the first values of the point give the occurrence condition
    let V := firstValues W b₁.model.columns.size
    have hVW : AgreeOn b₁.model.columns.size V W := agreeOn_firstValues W _
    have hadm : AddedRowsAdmit b b₁ V := fun R hR =>
      (Row.admits_congr (hs₂.rows R (List.mem_of_mem_drop hR)) hVW).2
        (hW.rows R (List.mem_of_mem_drop hR))
    have hbin : ∀ q ∈ cells.flatten, ∃ c : Bool, V.getD q.2 Scalar.zero = ofBool c := by
      intro q hq
      have hlt : q.2 < b₁.model.columns.size := by rw [hadd.size]; exact (hcells q hq).2
      rw [hVW q.2 hlt]
      exact hadd.bits hW q.2 (hcells q hq).1 hlt
    have hRV : b.Reads val V :=
      hR.agree hctx.sound ((hVW.mono (hg.size_columns_le)).symm)
    obtain ⟨-, hflows⟩ := (hsem V hW.finite_firstValues hbin).1 hadm
    have hmap : vars.map (evalNode b.nodes V) = vars.map val :=
      List.map_congr_left fun x hx => hRV x (hops x hx)
    have hh := hholds.2 (hmap ▸ hflows)
    exact ⟨(evalNode_encodeAs_posted hn₁ hk₁ W).trans (hone.2 hh).symm, fun _ => hh⟩
  · -- every variable takes a value of its domain; its binaries indicate it
    have hdomain : ∀ p ∈ vars.zip cells, ∃ q ∈ p.2, val p.1 = q.1 := by
      intro p hp
      have hpd : (p.1, p.2.map Prod.fst) ∈ vars.zip ds := by
        rw [← hdom, List.zip_map_right]
        exact List.mem_map_of_mem hp
      have hdv := mapM_ok_zip hds _ hpd
      have hx : b.Encoded p.1 := hops p.1 (List.of_mem_zip hp).1
      obtain ⟨m, hm, hme⟩ := hx
      have hc : m.continuous = false := by
        cases hc : m.continuous
        · rfl
        · rw [domainValues_continuous hm hc] at hdv
          cases hdv
      obtain ⟨z, hz, hvz⟩ := domainValues_takes_of_bound le_rfl
        ⟨hctx.sound.children, fun j m _ hm => hctx.derived j m hm fun _ _ => List.not_mem_nil⟩
        (hfit p.1 (List.of_mem_zip hp).1) hm hc (hctx.derivedAlong hval₀ ⟨m, hm, hme⟩) hdv
      obtain ⟨q, hq, rfl⟩ := List.mem_map.1 hz
      exact ⟨q, hq, hvz⟩
    let zs := (vars.zip cells).flatMap fun p => p.2.map fun q => decide (val p.1 = q.1)
    have hzs : zs.length = cells.flatten.length := by
      have hmap : (vars.zip cells).map (fun p => p.2.length) = cells.map List.length := by
        change (vars.zip cells).map (List.length ∘ Prod.snd) = _
        rw [← List.map_map, List.map_snd_zip hlen.ge]
      simp only [zs, List.length_flatMap, List.length_map, List.length_flatten, hmap]
    have hUW : AgreeOn b.model.columns.size W (pushBools W zs) := by
      rw [← hsize]
      exact agreeOn_pushBools W zs
    have hRU : b.Reads val (pushBools W zs) := hR.agree hctx.sound hUW
    have hUfin : ∀ v, ∃ w, (pushBools W zs).getD v Scalar.zero = fin w :=
      finite_pushBools (fun v hv => by
        obtain ⟨w, hw, -⟩ := hW.columns v _ (Array.getElem?_eq_getElem (hsize ▸ hv))
        exact ⟨w, hw⟩) zs
    have hread := getD_pushBools_flatMap W hlen (hsize ▸ hpos) fun x v => decide (val x = v)
    have hUbin : ∀ q ∈ cells.flatten, ∃ c : Bool, (pushBools W zs).getD q.2 Scalar.zero = ofBool c :=
      fun q hq => getD_pushBools_bit W zs (hsize ▸ (hcells q hq).1)
        (by rw [hzs, hsize]; exact (hcells q hq).2)
    have hind : ∀ p ∈ vars.zip cells, Indicates (pushBools W zs) (evalNode b.nodes (pushBools W zs) p.1) p.2 := by
      intro p hp
      rw [hRU p.1 (hops p.1 (List.of_mem_zip hp).1)]
      obtain ⟨q, hq, hvq⟩ := hdomain p hp
      exact ⟨⟨q, hq, hvq⟩, fun q' hq' => hread p hp q' hq'⟩
    have hmap : vars.map (evalNode b.nodes (pushBools W zs)) = vars.map val :=
      List.map_congr_left fun x hx => hRU x (hops x hx)
    refine ⟨pushBools W zs, hUW, hadd.fits_pushBools hsize hzs.ge,
      (hsem _ hUfin hUbin).2 ⟨hind, hmap ▸ hholds.1 (hA rfl)⟩, ?_⟩
    exact (evalNode_encodeAs_posted hn₁ hk₁ _).trans (hone.2 (hA rfl)).symm

end Builder

end MipLowering
