import Mathlib
import MipLowering.Proofs.Lowering.SoundBounds

/-!
# Explicit domains of nodes

A flow constraint lists, for each of its variables, the integers the variable may take
(`domainValues`). The walk goes down a chain of views (`DomainPath`): a view lists the image of its
base's list under `scale · v + offset`, sorted without repeats; the chain ends at an integer
variable that lists its values, which gives that list, or at any other node, which gives the
integers within its bounds unless there are more of them than the limit.

In a builder that requests reach, take a node with no pinned sum below it. Then `domainValues`
fails with `continuousDomain` exactly for a continuous node, and for a node marked whole it fails
only with `domainTooLarge`, exactly when the chain ends on a range with more values than the limit.
Otherwise the list is strictly increasing, and read with exact arithmetic while the bounds on the
chain stay below `2^53`, where the casts to integers are exact, it is the value list, the sorted
image of the base's list or the integers within the bounds, and it holds every value the node
takes (`Builder.domainValues_exact`).

Pinning a sum breaks this: its bounds move to the pinned value, so its domain shrinks to the
integers there while its terms still take all of their values
(`Builder.pinnedSumBuilder_domain_misses_value`).

## Main definitions

* `MipLowering.DomainPath` — the chain of views the walk goes down.
* `MipLowering.Kind.RangeDomain` — the kinds whose domain is a range of integers.
* `MipLowering.FitsRange` — bounds around at most a given number of integers.
* `MipLowering.Builder.ValuesSorted` — value lists in increasing order.

## Main results

* `MipLowering.Builder.Reachable.valuesSorted` — reachable builders keep their value lists sorted.
* `MipLowering.Builder.domainValues_error`, `MipLowering.Builder.domainValues_of_exceeds` — the
  walk fails exactly at a range that is too large.
* `MipLowering.Builder.domainValues_takes` — the list holds every value the node takes.
* `MipLowering.Builder.domainValues_exact`.
-/

namespace MipLowering

open ERat

/-! ### Value lists stay sorted -/

namespace Builder

section Sorted

variable {α : Type} [Scalar α] {b b' : Builder α}

/-- Every integer variable of the arena lists its values in increasing order. -/
def ValuesSorted (b : Builder α) : Prop :=
  ∀ (i : Nat) (n : Node α) (vs : List Int), b.nodes[i]? = some n → n.kind.values? = some vs →
    vs.Pairwise (· < ·)

namespace ValuesSorted

theorem of_keepsNodes (h : b.ValuesSorted) (hk : b.KeepsNodes b') : b'.ValuesSorted := by
  intro i m vs hm hvs
  by_cases hi : b.nodes.size ≤ i
  · -- a node beyond `b` is a reading, which lists no values
    obtain ⟨x, e, rfl⟩ := hk.new i m hi hm
    cases hvs
  · have hmb := Array.getElem?_eq_getElem (Nat.lt_of_not_le hi)
    obtain ⟨e, he⟩ := hk.old i _ hmb
    rw [hm, Option.some.injEq] at he
    subst he
    exact h i _ vs hmb hvs

theorem push_derived (h : b.ValuesSorted) {k₀ k : Kind α} {lo hi : α} {c : Bool}
    (hd : b.derive k₀ = .ok (k, lo, hi, c)) :
    (b.pushNode ⟨k, lo, hi, c, none⟩).2.ValuesSorted := by
  intro i m vs hm hvs
  change (b.nodes.push _)[i]? = some m at hm
  rw [Array.getElem?_push] at hm
  split at hm
  · cases hm
    exact derive_values_sorted hd vs hvs
  · exact h i m vs hm hvs

omit [Scalar α] in
/-- Pinning a sum changes its bounds only. -/
theorem setRhs (h : b.ValuesSorted) {id : Nat} {k : α} (hs : b.setRhs id k = .ok b') :
    b'.ValuesSorted := by
  obtain ⟨n, hn, -, rfl⟩ := setRhs_ok hs
  intro i m vs hm hvs
  change (b.nodes.setIfInBounds id _)[i]? = some m at hm
  rw [Array.getElem?_setIfInBounds] at hm
  split at hm
  · next hid =>
    subst hid
    split at hm
    · cases hm
      exact h _ n vs hn hvs
    · cases hm
  · exact h i m vs hm hvs

omit [Scalar α] in
theorem settle {x : Except (ModelError α) (Builder α)} (h : b.ValuesSorted)
    (hx : ∀ b', x = .ok b' → b'.ValuesSorted) : (b.settle x).2.ValuesSorted := by
  cases x with
  | ok b' => exact hx b' rfl
  | error e => exact h

theorem exec (h : b.ValuesSorted) (hb : b.Idle) (r : Request α) : (b.exec r).2.ValuesSorted := by
  cases r with
  | add id => exact h.of_keepsNodes (keepsNodes_addRun hb id)
  | addExpr k =>
    refine h.settle fun b' hb' => ?_
    obtain ⟨_, hok⟩ := map_snd_eq_ok hb'
    obtain ⟨k', lo, hi, c, hd, hr⟩ := addExpr_ok hok
    obtain rfl : b' = _ := congrArg Prod.snd hr
    exact h.push_derived hd
  | addIntArray xs =>
    refine h.settle fun b' hb' => ?_
    obtain ⟨_, hok⟩ := map_snd_eq_ok hb'
    rw [addIntArray_ok hok]
    exact h.of_keepsNodes (.of_nodes rfl)
  | addVarArray ids =>
    refine h.settle fun b' hb' => ?_
    obtain ⟨_, hok⟩ := map_snd_eq_ok hb'
    rw [addVarArray_ok hok]
    exact h.of_keepsNodes (.of_nodes rfl)
  | setRhs id k => exact h.settle fun b' hs => h.setRhs hs
  | initialise =>
    refine h.settle fun b' hb' => ?_
    rw [initialise_ok hb']
    exact h.of_keepsNodes (.of_nodes rfl)
  | initialiseWith ds =>
    refine h.settle fun b' hb' => ?_
    obtain ⟨-, cols, rfl⟩ := initialiseWith_ok hb'
    exact h.of_keepsNodes (.of_nodes rfl)

end ValuesSorted

/-- Reachable builders list the values of their integer variables in increasing order. -/
theorem Reachable.valuesSorted (hb : b.Reachable) : b.ValuesSorted := by
  induction hb with
  | new =>
    intro i n vs hn
    simp [Builder.new] at hn
  | withConfig hc =>
    simp only [Builder.withConfig, bind, Except.bind, pure, Except.pure] at hc
    split at hc
    · cases hc
    · cases hc
      intro i n vs hn
      simp at hn
  | exec r hr ih => exact ih.exec hr.idle r

end Sorted

end Builder

/-! ### The walk of `domainValues` -/

section Walk

variable {α : Type} {nodes : Array (Node α)}

/-- `j` is reached from `id` going down views to their bases: the nodes whose domains
`domainValues` reads for `id`. -/
inductive DomainPath (nodes : Array (Node α)) : Nat → Nat → Prop
  | refl (id : Nat) : DomainPath nodes id id
  | view {id base j : Nat} {n : Node α} {sh : ViewShape} {scale offset : α} :
      nodes[id]? = some n → n.kind = .view sh base scale offset → DomainPath nodes base j →
      DomainPath nodes id j

theorem DomainPath.valueBelow {i j : Nat} (h : DomainPath nodes i j) : ValueBelow nodes i j := by
  induction h with
  | refl => exact .refl _
  | view hn hk _ ih => exact .operand hn (by simp [hk, Kind.valueOperands]) ih

/-- The kinds whose domain is the integers within their bounds: neither an integer variable that
lists its values nor a view. -/
def Kind.RangeDomain (k : Kind α) : Prop :=
  (∀ l u vs, k ≠ .intVar l u (some vs)) ∧ ∀ sh base scale offset, k ≠ .view sh base scale offset

/-- The three ways `domainValues` reads a kind. -/
theorem Kind.domain_cases (k : Kind α) :
    (∃ l u vs, k = .intVar l u (some vs)) ∨ (∃ sh base scale offset, k = .view sh base scale offset) ∨
      k.RangeDomain := by
  by_cases h₁ : ∃ l u vs, k = .intVar l u (some vs)
  · exact .inl h₁
  by_cases h₂ : ∃ sh base scale offset, k = .view sh base scale offset
  · exact .inr (.inl h₂)
  simp only [not_exists] at h₁ h₂
  exact .inr (.inr ⟨h₁, h₂⟩)

variable [Scalar α] {limit id : Nat} {n : Node α}

theorem domainValues_continuous (hn : nodes[id]? = some n) (hc : n.continuous = true) :
    domainValues nodes limit id = .error (.continuousDomain id) := by
  rw [domainValues, hn]
  simp only [hc, if_true]

theorem domainValues_values (hn : nodes[id]? = some n) (hc : n.continuous = false) {l u : Int}
    {vs : List Int} (hk : n.kind = .intVar l u (some vs)) : domainValues nodes limit id = .ok vs := by
  rw [domainValues, hn]
  simp only [hc, Bool.false_eq_true, if_false, hk]

theorem domainValues_view (hn : nodes[id]? = some n) (hc : n.continuous = false) {sh : ViewShape}
    {base : Nat} {scale offset : α} (hk : n.kind = .view sh base scale offset) (hb : base < id) :
    domainValues nodes limit id = (domainValues nodes limit base >>= fun ds =>
      pure (sortedValues (ds.map fun v => Scalar.toInt64 (scale * Scalar.ofInt v + offset)))) := by
  rw [domainValues, hn]
  simp only [hc, Bool.false_eq_true, if_false, hk, dif_pos hb]
  rfl

theorem domainValues_range (hn : nodes[id]? = some n) (hc : n.continuous = false)
    (hk : n.kind.RangeDomain) :
    domainValues nodes limit id =
      let lo := Scalar.ceil n.lower
      let hi := Scalar.floor n.upper
      let size := hi - lo + Scalar.one
      if !Scalar.isFinite size || decide ((Scalar.ofInt limit : α) < size) then
        .error (.domainTooLarge id (if Scalar.isFinite size then Scalar.toWord size
          else Scalar.wordMax) limit)
      else
        .ok ((List.range (Scalar.toInt64 hi + 1 - Scalar.toInt64 lo).toNat).map fun k =>
          Scalar.toInt64 lo + Int.ofNat k) := by
  rw [domainValues, hn]
  simp only [hc, Bool.false_eq_true, if_false]
  split
  · next vs hk' => exact absurd hk' (hk.1 _ _ vs)
  · next hk' => exact absurd hk' (hk.2 _ _ _ _)
  · rfl

end Walk

/-- The integers from `a` to `b`, as the range case lists them. -/
theorem mem_intRange {a b z : Int} :
    z ∈ (List.range (b + 1 - a).toNat).map (fun k => a + Int.ofNat k) ↔ a ≤ z ∧ z ≤ b := by
  simp only [List.mem_map, List.mem_range, Int.ofNat_eq_natCast]
  constructor
  · rintro ⟨k, hk, rfl⟩
    omega
  · rintro ⟨h₁, h₂⟩
    exact ⟨(z - a).toNat, by omega, by omega⟩

theorem intRange_pairwise (a b : Int) :
    ((List.range (b + 1 - a).toNat).map fun k => a + Int.ofNat k).Pairwise (· < ·) := by
  rw [List.pairwise_map]
  exact List.pairwise_lt_range.imp fun h => by simp only [Int.ofNat_eq_natCast]; omega

/-- A strictly increasing list has no repeats to erase. -/
theorem eraseRepsBy_loop_of_lt : ∀ (a : Int) (l acc : List Int), (a :: l).Pairwise (· < ·) →
    List.eraseRepsBy.loop (· == ·) a l acc = (a :: acc).reverse ++ l
  | a, [], acc, _ => by rw [List.eraseRepsBy.loop, List.append_nil]
  | a, a' :: l, acc, h => by
    rw [List.eraseRepsBy.loop]
    cases hb : (a == a') with
    | true => exact absurd (beq_iff_eq.mp hb) (ne_of_lt (List.rel_of_pairwise_cons h List.mem_cons_self))
    | false =>
      rw [eraseRepsBy_loop_of_lt a' l (a :: acc) (List.pairwise_cons.mp h).2]
      simp

/-- A strictly increasing list is its own sorted list without repeats. -/
theorem sortedValues_of_lt {l : List Int} (h : l.Pairwise (· < ·)) : sortedValues l = l := by
  unfold sortedValues
  rw [List.mergeSort_of_pairwise (h.imp fun hab => decide_eq_true (le_of_lt hab))]
  cases l with
  | nil => rfl
  | cons a l => exact (eraseRepsBy_loop_of_lt a l [] h).trans (by simp)

/-! ### Ranges, read exactly -/

/-- Bounds around a finite range of at most `limit` integers. -/
def FitsRange (limit : Nat) (lower upper : ERat) : Prop :=
  ∃ l u : ℚ, lower = fin l ∧ upper = fin u ∧ u.floor - l.ceil + 1 ≤ limit

/-- The size check of the range case fails exactly when the bounds are not around a finite range
of at most `limit` integers: an infinite or NaN bound makes the size infinite or NaN. -/
theorem rangeCheck_iff (limit : Nat) (lower upper : ERat) :
    (!Scalar.isFinite (Scalar.floor upper - Scalar.ceil lower + Scalar.one) ||
        decide ((Scalar.ofInt limit : ERat) < Scalar.floor upper - Scalar.ceil lower + Scalar.one)) =
      true ↔ ¬FitsRange limit lower upper := by
  cases lower <;> cases upper
  case fin.fin l u =>
    rw [floor_fin, ceil_fin, fin_sub_fin, one_eq_fin, fin_add_fin, ofInt_eq, isFinite_fin]
    simp only [FitsRange, fin.injEq, exists_and_left, exists_eq_left', Bool.not_true,
      Bool.false_or, decide_eq_true_eq, fin_lt_fin, not_le]
    norm_cast
  all_goals exact iff_of_true rfl (by simp [FitsRange])

/-- Both bounds are finite and below `B` in magnitude. -/
def BoundsBelow (lower upper : ERat) (B : ℚ) : Prop :=
  ∃ l u : ℚ, lower = fin l ∧ upper = fin u ∧ |l| < B ∧ |u| < B

theorem Encloses.abs_le_of_boundsBelow {lo hi : ERat} {c : Bool} {x B : ℚ} (h : Encloses lo hi c x)
    (hB : BoundsBelow lo hi B) : |x| ≤ B := by
  obtain ⟨l, u, rfl, rfl, hl, hu⟩ := hB
  have h₁ := fin_le_fin.1 h.1
  have h₂ := fin_le_fin.1 h.2.1
  rw [abs_lt] at hl hu
  rw [abs_le]
  constructor <;> linarith

/-- Truncation is exact on integers of magnitude at most `2^63 - 1`. -/
theorem toInt64_exact_of_abs_le_max {z : ℤ} (h : |(z : ℚ)| ≤ 2 ^ 63 - 1) :
    Scalar.toInt64 (fin (z : ℚ)) = z := by
  have h' : |z| ≤ 2 ^ 63 - 1 := by exact_mod_cast h
  rw [abs_le] at h'
  norm_num at h'
  exact toInt64_fin (by simp only [Scalar.int64Min]; omega) (by simp only [Scalar.int64Max]; omega)

section Range

variable {nodes : Array (Node ERat)} {limit id : Nat} {n : Node ERat}

theorem domainValues_range_exceeds (hn : nodes[id]? = some n) (hc : n.continuous = false)
    (hk : n.kind.RangeDomain) (hx : ¬FitsRange limit n.lower n.upper) :
    ∃ sz, domainValues nodes limit id = .error (.domainTooLarge id sz limit) := by
  rw [domainValues_range hn hc hk]
  dsimp only
  rw [if_pos ((rangeCheck_iff limit n.lower n.upper).2 hx)]
  exact ⟨_, rfl⟩

theorem domainValues_range_fits (hn : nodes[id]? = some n) (hc : n.continuous = false)
    (hk : n.kind.RangeDomain) {l u : ℚ} (hl : n.lower = fin l) (hu : n.upper = fin u)
    (hfit : u.floor - l.ceil + 1 ≤ limit) :
    domainValues nodes limit id =
      .ok ((List.range (Scalar.toInt64 (fin (u.floor : ℚ)) + 1 -
        Scalar.toInt64 (fin (l.ceil : ℚ))).toNat).map fun k =>
          Scalar.toInt64 (fin (l.ceil : ℚ)) + Int.ofNat k) := by
  have hcheck := mt (rangeCheck_iff limit n.lower n.upper).1 (not_not.2 ⟨l, u, hl, hu, hfit⟩)
  rw [domainValues_range hn hc hk]
  dsimp only
  rw [if_neg hcheck, hl, hu]
  rfl

/-- Within bounds below `B ≤ 2^63 - 1` the range case lists exactly the integers within the
bounds. -/
theorem domainValues_range_mem_of_bound {B : ℚ} (hB₆₃ : B ≤ 2 ^ 63 - 1)
    (hn : nodes[id]? = some n) (hc : n.continuous = false) (hk : n.kind.RangeDomain)
    (hB : BoundsBelow n.lower n.upper B) {ds : List Int}
    (hds : domainValues nodes limit id = .ok ds) :
    ∀ z : ℤ, z ∈ ds ↔ n.lower ≤ fin z ∧ fin z ≤ n.upper := by
  obtain ⟨l, u, hl, hu, hlB, huB⟩ := hB
  by_cases hfit : u.floor - l.ceil + 1 ≤ limit
  · rw [abs_lt] at hlB huB
    -- the rounded bounds stay within `2^63 - 1`, where truncation is exact
    have hlo : Scalar.toInt64 (fin (l.ceil : ℚ)) = l.ceil := by
      refine toInt64_exact_of_abs_le_max (abs_le.2 ⟨?_, ?_⟩)
      · have := Rat.le_ceil (x := l)
        linarith
      · have h := Rat.ceil_le_iff (x := l) (y := 2 ^ 63 - 1)
        push_cast at h
        exact_mod_cast h.2 (by linarith)
    have hhi : Scalar.toInt64 (fin (u.floor : ℚ)) = u.floor := by
      refine toInt64_exact_of_abs_le_max (abs_le.2 ⟨?_, ?_⟩)
      · have h := Rat.le_floor_iff (x := -(2 ^ 63 - 1)) (a := u)
        push_cast at h
        exact_mod_cast h.2 (by linarith)
      · have := Rat.floor_le u
        linarith
    rw [domainValues_range_fits hn hc hk hl hu hfit, hlo, hhi] at hds
    cases hds
    intro z
    rw [mem_intRange, hl, hu, fin_le_fin, fin_le_fin, Rat.ceil_le_iff, Rat.le_floor_iff]
  · have hx : ¬FitsRange limit n.lower n.upper := by
      rintro ⟨l', u', hl', hu', h⟩
      rw [hl, fin.injEq] at hl'
      rw [hu, fin.injEq] at hu'
      subst hl' hu'
      exact hfit h
    obtain ⟨sz, hsz⟩ := domainValues_range_exceeds hn hc hk hx
    rw [hsz] at hds
    cases hds

/-- Within bounds below `2^53` the range case lists exactly the integers within the bounds. -/
theorem domainValues_range_mem (hn : nodes[id]? = some n) (hc : n.continuous = false)
    (hk : n.kind.RangeDomain) (hB : BoundsBelow n.lower n.upper (2 ^ 53)) {ds : List Int}
    (hds : domainValues nodes limit id = .ok ds) :
    ∀ z : ℤ, z ∈ ds ↔ n.lower ≤ fin z ∧ fin z ≤ n.upper :=
  domainValues_range_mem_of_bound (by norm_num) hn hc hk hB hds

end Range

/-! ### Nodes marked whole -/

namespace Builder

variable {b : Builder ERat}

/-- A node marked whole reads only nodes marked whole, and a sum marked whole has a whole, hence
finite, offset. -/
theorem DerivedFrom.whole {k : Kind ERat} {lo hi : ERat} (hd : b.DerivedFrom k lo hi false) :
    k.OffsetFinite ∧ ∀ c ∈ k.valueOperands, ∃ m, b.node c = .ok m ∧ m.continuous = false := by
  cases k with
  | view sh base scale offset =>
    obtain ⟨-, -, m, hm, -, -, hc⟩ := hd
    refine ⟨trivial, fun c hc' => ?_⟩
    simp only [Kind.valueOperands, List.mem_singleton] at hc'
    subst hc'
    have hw := hc.symm
    simp only [Bool.or_eq_false_iff] at hw
    exact ⟨m, hm, hw.1.1⟩
  | sum vars weights offset =>
    have hfold : (vars.zip weights).foldlM (sumStep b) (offset, offset, !Scalar.isWhole offset) =
        .ok (lo, hi, false) := hd
    obtain ⟨hoff, hterms⟩ := foldlM_sumStep_whole _ _ _ hfold rfl
    refine ⟨?_, fun c hc => ?_⟩
    · -- a whole offset is finite
      rw [Bool.not_eq_false'] at hoff
      cases offset with
      | fin q => rfl
      | _ => cases hoff
    · obtain ⟨t, ht, rfl⟩ := List.mem_map.1 hc
      exact hterms t ht
  | objective sense expr =>
    obtain ⟨m, hm, -, -, hc⟩ := hd
    refine ⟨trivial, fun c hc' => ?_⟩
    simp only [Kind.valueOperands, List.mem_singleton] at hc'
    subst hc'
    exact ⟨m, hm, hc.symm⟩
  | _ => exact ⟨trivial, fun c hc => by simp [Kind.valueOperands] at hc⟩

/-- Below a node marked whole, along the values it reads, every node is marked whole and every sum
has a finite offset, as soon as each carries the bounds it derives. By induction on the path. -/
theorem ValueBelow.whole {i j : Nat} (hj : ValueBelow b.nodes i j) :
    ∀ n m, b.nodes[i]? = some n → n.continuous = false →
      (∀ k p, ValueBelow b.nodes i k → b.nodes[k]? = some p →
        b.DerivedFrom p.kind p.lower p.upper p.continuous) →
      b.nodes[j]? = some m → m.continuous = false ∧ m.kind.OffsetFinite := by
  induction hj with
  | refl i =>
    intro n m hn hc hder hm
    rw [hn, Option.some.injEq] at hm
    subst hm
    have hd := hder i n (.refl i) hn
    rw [hc] at hd
    exact ⟨hc, hd.whole.1⟩
  | operand hn' hc' _ ih =>
    intro n m hn hc hder hm
    rw [hn, Option.some.injEq] at hn'
    subst hn'
    have hd := hder _ n (.refl _) hn
    rw [hc] at hd
    -- the operand is there and marked whole, so the path goes on from it
    obtain ⟨p, hp, hpc⟩ := hd.whole.2 _ hc'
    exact ih p m (node_ok hp) hpc (fun k q hk => hder k q (.operand hn hc' hk)) hm

/-- A view marked whole has a whole base that is there, and a whole scale and offset. -/
theorem DerivedFrom.view_whole {sh : ViewShape} {base : Nat} {scale offset lo hi : ERat}
    (hd : b.DerivedFrom (.view sh base scale offset) lo hi false) :
    ∃ m, b.node base = .ok m ∧ m.continuous = false ∧ (∃ zs : ℤ, scale = fin zs) ∧
      ∃ zo : ℤ, offset = fin zo := by
  obtain ⟨hs, ho, m, hm, -, -, hc⟩ := hd
  have hw := hc.symm
  simp only [Bool.or_eq_false_iff, Bool.not_eq_false'] at hw
  obtain ⟨⟨hmc, hsw⟩, how⟩ := hw
  obtain ⟨s, rfl⟩ := exists_fin_of_isFinite hs
  obtain ⟨o, rfl⟩ := exists_fin_of_isFinite ho
  obtain ⟨zs, rfl⟩ := isWhole_fin_iff.1 hsw
  obtain ⟨zo, rfl⟩ := isWhole_fin_iff.1 how
  exact ⟨m, hm, hmc, ⟨zs, rfl⟩, zo, rfl⟩

/-- The image `zs · v + zo` of an integer, computed as the walk does, is exact up to `2^63 - 1`. -/
theorem toInt64_image_of_abs_le_max {zs zo v : ℤ} (h : |((zs * v + zo : ℤ) : ℚ)| ≤ 2 ^ 63 - 1) :
    Scalar.toInt64 (fin (zs : ℚ) * Scalar.ofInt v + fin (zo : ℚ)) = zs * v + zo := by
  rw [ofInt_eq, fin_mul_fin, fin_add_fin]
  have hcast : (zs : ℚ) * v + zo = ((zs * v + zo : ℤ) : ℚ) := by push_cast; ring
  rw [hcast]
  exact toInt64_exact_of_abs_le_max h

/-! ### The walk on a chain of views -/

/-- What the walk of `domainValues` from `id` relies on: the operands of the arena precede their
nodes, and every node on the chain of views carries the bounds it derives. -/
structure DomainReady (b : Builder ERat) (id : Nat) : Prop where
  precede : OperandsPrecede b.nodes
  derived : ∀ j m, DomainPath b.nodes id j → b.nodes[j]? = some m →
    b.DerivedFrom m.kind m.lower m.upper m.continuous

namespace DomainReady

variable {id : Nat} {n : Node ERat} {sh : ViewShape} {x : Nat} {scale offset : ERat}

theorem base (h : b.DomainReady id) (hn : b.nodes[id]? = some n)
    (hk : n.kind = .view sh x scale offset) : b.DomainReady x :=
  ⟨h.precede, fun j m hj => h.derived j m (.view hn hk hj)⟩

/-- A view marked whole on the chain: its base precedes it, is there and is marked whole, and its
scale and offset are whole. -/
theorem view (h : b.DomainReady id) (hn : b.nodes[id]? = some n) (hc : n.continuous = false)
    (hk : n.kind = .view sh x scale offset) :
    x < id ∧ (∃ m, b.nodes[x]? = some m ∧ m.continuous = false) ∧
      (∃ zs : ℤ, scale = fin zs) ∧ ∃ zo : ℤ, offset = fin zo := by
  have hd := h.derived id n (.refl id) hn
  rw [hk, hc] at hd
  obtain ⟨m, hm, hmc, hs, ho⟩ := hd.view_whole
  exact ⟨h.precede id n hn x (by simp [hk, Kind.children]), ⟨m, node_ok hm, hmc⟩, hs, ho⟩

/-- Every node on the chain below a node marked whole is marked whole. -/
theorem whole (h : b.DomainReady id) (hn : b.nodes[id]? = some n) (hc : n.continuous = false)
    {j : Nat} {m : Node ERat} (hj : DomainPath b.nodes id j) (hm : b.nodes[j]? = some m) :
    m.continuous = false := by
  induction hj generalizing n with
  | refl =>
    rw [hn, Option.some.injEq] at hm
    rw [← hm]
    exact hc
  | view hn' hk _ ih =>
    rw [hn, Option.some.injEq] at hn'
    subst hn'
    obtain ⟨-, ⟨p, hp, hpc⟩, -⟩ := h.view hn hc hk
    exact ih (h.base hn hk) hp hpc hm

/-- A view marked whole on the chain that lists `ds`: its base precedes it, is marked whole and
lists `ds'`, its scale and offset are whole, and `ds` is the sorted image of `ds'`. -/
theorem view_ok {limit : Nat} (h : b.DomainReady id) (hn : b.nodes[id]? = some n)
    (hc : n.continuous = false) (hk : n.kind = .view sh x scale offset) {ds : List Int}
    (hds : domainValues b.nodes limit id = .ok ds) :
    x < id ∧ ∃ (m : Node ERat) (ds' : List Int) (zs zo : ℤ), b.nodes[x]? = some m ∧
      m.continuous = false ∧ scale = fin zs ∧ offset = fin zo ∧
      domainValues b.nodes limit x = .ok ds' ∧
      ds = sortedValues (ds'.map fun v => Scalar.toInt64 (fin (zs : ℚ) * Scalar.ofInt v + fin zo)) := by
  obtain ⟨hb, ⟨m, hm, hmc⟩, ⟨zs, rfl⟩, zo, rfl⟩ := h.view hn hc hk
  rw [domainValues_view hn hc hk hb] at hds
  obtain ⟨ds', hbase, hds⟩ := except_bind_ok hds
  cases hds
  exact ⟨hb, m, ds', zs, zo, hm, hmc, rfl, rfl, hbase, rfl⟩

/-- The image `zs · v + zo` of a value that the base of a view encloses lies within the bounds of
the view, which derives them from the base's. -/
theorem image_encloses (h : b.DomainReady id) (hn : b.nodes[id]? = some n)
    (hc : n.continuous = false) {zs zo : ℤ} (hk : n.kind = .view sh x (fin zs) (fin zo))
    {m : Node ERat} (hm : b.nodes[x]? = some m) (hmc : m.continuous = false) {v : ℤ}
    (hv : Encloses m.lower m.upper false v) :
    Encloses n.lower n.upper false ((zs * v + zo : ℤ) : ℚ) := by
  have hd := h.derived id n (.refl id) hn
  rw [hk, hc] at hd
  refine encloses_view (V := fun _ => (v : ℚ)) hd (by simp [Kind.Takes]) fun m' hm' => ?_
  rw [node_of_getElem? hm, Except.ok.injEq] at hm'
  subst hm'
  rw [hmc]
  exact hv

end DomainReady

variable {limit id : Nat} {n : Node ERat}

/-- On a chain of views marked whole, the walk fails only with `domainTooLarge`, at the range that
ends the chain when that range has more values than the limit. By strong induction on the node. -/
theorem domainValues_error (h : b.DomainReady id) (hn : b.nodes[id]? = some n)
    (hc : n.continuous = false) {e : ModelError ERat} (he : domainValues b.nodes limit id = .error e) :
    ∃ j m sz, e = .domainTooLarge j sz limit ∧ DomainPath b.nodes id j ∧ b.nodes[j]? = some m ∧
      m.kind.RangeDomain ∧ ¬FitsRange limit m.lower m.upper := by
  induction id using Nat.strong_induction_on generalizing n with
  | _ id ih =>
  rcases n.kind.domain_cases with ⟨l, u, vs, hk⟩ | ⟨sh, base, scale, offset, hk⟩ | hk
  · rw [domainValues_values hn hc hk] at he
    cases he
  · -- the error of a view is the error of its base
    obtain ⟨hb, ⟨m, hm, hmc⟩, -⟩ := h.view hn hc hk
    rw [domainValues_view hn hc hk hb] at he
    cases hbase : domainValues b.nodes limit base with
    | ok ds =>
      rw [hbase] at he
      cases he
    | error e' =>
      rw [hbase] at he
      cases he
      obtain ⟨j, m', sz, rfl, hp, hm', hx⟩ := ih base hb (h.base hn hk) hm hmc hbase
      exact ⟨j, m', sz, rfl, .view hn hk hp, hm', hx⟩
  · by_cases hfit : FitsRange limit n.lower n.upper
    · obtain ⟨l, u, hl, hu, hle⟩ := hfit
      rw [domainValues_range_fits hn hc hk hl hu hle] at he
      cases he
    · obtain ⟨sz, hsz⟩ := domainValues_range_exceeds hn hc hk hfit
      rw [hsz] at he
      cases he
      exact ⟨id, n, sz, rfl, .refl id, hn, hk, hfit⟩

/-- A range with more values than the limit at the end of the chain makes the walk fail there. By
induction on the chain. -/
theorem domainValues_of_exceeds (h : b.DomainReady id) (hn : b.nodes[id]? = some n)
    (hc : n.continuous = false) {j : Nat} {m : Node ERat} (hj : DomainPath b.nodes id j)
    (hm : b.nodes[j]? = some m) (hk : m.kind.RangeDomain) (hx : ¬FitsRange limit m.lower m.upper) :
    ∃ sz, domainValues b.nodes limit id = .error (.domainTooLarge j sz limit) := by
  induction hj generalizing n with
  | refl =>
    rw [hn, Option.some.injEq] at hm
    subst hm
    exact domainValues_range_exceeds hn hc hk hx
  | view hn' hk' _ ih =>
    rw [hn, Option.some.injEq] at hn'
    subst hn'
    obtain ⟨hb, ⟨p, hp, hpc⟩, -⟩ := h.view hn hc hk'
    obtain ⟨sz, hsz⟩ := ih (h.base hn hk') hp hpc hm
    rw [domainValues_view hn hc hk' hb, hsz]
    exact ⟨sz, rfl⟩

/-- The walk lists its values in increasing order: a sorted value list, a sorted image, or a
range. -/
theorem domainValues_sorted (hs : b.ValuesSorted) (hprec : OperandsPrecede b.nodes)
    (hn : b.nodes[id]? = some n) (hc : n.continuous = false) {ds : List Int}
    (hds : domainValues b.nodes limit id = .ok ds) : ds.Pairwise (· < ·) := by
  rcases n.kind.domain_cases with ⟨l, u, vs, hk⟩ | ⟨sh, base, scale, offset, hk⟩ | hk
  · rw [domainValues_values hn hc hk] at hds
    cases hds
    exact hs id n ds hn (by simp [hk, Kind.values?])
  · rw [domainValues_view hn hc hk (hprec id n hn base (by simp [hk, Kind.children]))] at hds
    obtain ⟨ds', -, hds⟩ := except_bind_ok hds
    cases hds
    exact pairwise_lt_sortedValues _
  · by_cases hfit : FitsRange limit n.lower n.upper
    · obtain ⟨l, u, hl, hu, hle⟩ := hfit
      rw [domainValues_range_fits hn hc hk hl hu hle] at hds
      cases hds
      exact intRange_pairwise _ _
    · obtain ⟨sz, hsz⟩ := domainValues_range_exceeds hn hc hk hfit
      rw [hsz] at hds
      cases hds

/-- Every value of the list lies within the bounds of the node, when the bounds on the chain are
below `B ≤ 2^63 - 1`. By strong induction on the node. -/
theorem domainValues_enclosed_of_bound {B : ℚ} (hB₆₃ : B ≤ 2 ^ 63 - 1) (h : b.DomainReady id)
    (hmag : ∀ j m, DomainPath b.nodes id j → b.nodes[j]? = some m →
      BoundsBelow m.lower m.upper B)
    (hn : b.nodes[id]? = some n) (hc : n.continuous = false) {ds : List Int}
    (hds : domainValues b.nodes limit id = .ok ds) : ∀ z ∈ ds, Encloses n.lower n.upper false z := by
  induction id using Nat.strong_induction_on generalizing n ds with
  | _ id ih =>
  rcases n.kind.domain_cases with ⟨l, u, vs, hk⟩ | ⟨sh, base, scale, offset, hk⟩ | hk
  · -- a listed value lies between the bounds derived from the list
    rw [domainValues_values hn hc hk] at hds
    cases hds
    have hd := h.derived id n (.refl id) hn
    rw [hc, hk] at hd
    exact fun z hz => encloses_intVar (V := fun _ => 0) hd ⟨z, rfl, hz⟩
  · obtain ⟨hb, m, ds', zs, zo, hm, hmc, rfl, rfl, hbase, rfl⟩ := h.view_ok hn hc hk hds
    have hbase_enc := ih base hb (h.base hn hk) (fun j m hj => hmag j m (.view hn hk hj)) hm hmc hbase
    intro z hz
    obtain ⟨v, hv, rfl⟩ := List.mem_map.1 (mem_sortedValues.1 hz)
    -- the image of a base value lies within the view's bounds, so it is computed exactly
    have himg := h.image_encloses hn hc hk hm hmc (hbase_enc v hv)
    rw [toInt64_image_of_abs_le_max
      ((himg.abs_le_of_boundsBelow (hmag id n (.refl id) hn)).trans hB₆₃)]
    exact himg
  · have hmem := domainValues_range_mem_of_bound hB₆₃ hn hc hk (hmag id n (.refl id) hn) hds
    intro z hz
    obtain ⟨h₁, h₂⟩ := (hmem z).1 hz
    exact ⟨h₁, h₂, fun _ => ⟨z, rfl⟩⟩

/-- The image of a view, read exactly: the sorted image of its base's list under `zs · v + zo`. -/
theorem domainValues_view_image_of_bound {B : ℚ} (hB₆₃ : B ≤ 2 ^ 63 - 1) (h : b.DomainReady id)
    (hmag : ∀ j m, DomainPath b.nodes id j → b.nodes[j]? = some m →
      BoundsBelow m.lower m.upper B)
    (hn : b.nodes[id]? = some n) (hc : n.continuous = false) {sh : ViewShape} {base : Nat}
    {scale offset : ERat} (hk : n.kind = .view sh base scale offset) {ds : List Int}
    (hds : domainValues b.nodes limit id = .ok ds) :
    ∃ (zs zo : ℤ) (ds' : List ℤ), scale = fin zs ∧ offset = fin zo ∧
      domainValues b.nodes limit base = .ok ds' ∧ ds = sortedValues (ds'.map fun v => zs * v + zo) := by
  obtain ⟨-, m, ds', zs, zo, hm, hmc, rfl, rfl, hbase, rfl⟩ := h.view_ok hn hc hk hds
  refine ⟨zs, zo, ds', rfl, rfl, hbase, congrArg sortedValues (List.map_congr_left fun v hv => ?_)⟩
  -- each image lies within the view's bounds
  have hbase_enc := domainValues_enclosed_of_bound hB₆₃ (h.base hn hk)
    (fun j m hj => hmag j m (.view hn hk hj)) hm hmc hbase
  exact toInt64_image_of_abs_le_max (((h.image_encloses hn hc hk hm hmc
    (hbase_enc v hv)).abs_le_of_boundsBelow (hmag id n (.refl id) hn)).trans hB₆₃)

/-- The list holds every value the node takes, along the values it reads, when the bounds on the
chain are below `B ≤ 2^63 - 1`. By strong induction on the node. -/
theorem domainValues_takes_of_bound {B : ℚ} (hB₆₃ : B ≤ 2 ^ 63 - 1) (h : b.DomainReady id)
    (hmag : ∀ j m, DomainPath b.nodes id j → b.nodes[j]? = some m →
      BoundsBelow m.lower m.upper B)
    (hn : b.nodes[id]? = some n) (hc : n.continuous = false) {V : Nat → ℚ}
    (hV : b.DerivedAlong V id) {ds : List Int} (hds : domainValues b.nodes limit id = .ok ds) :
    ∃ z ∈ ds, V id = z := by
  induction id using Nat.strong_induction_on generalizing n ds with
  | _ id ih =>
  have ht := hV.takes id n (.refl id) hn
  rcases n.kind.domain_cases with ⟨l, u, vs, hk⟩ | ⟨sh, base, scale, offset, hk⟩ | hk
  · -- an enumerated variable takes one of its listed values
    rw [domainValues_values hn hc hk] at hds
    cases hds
    rw [hk] at ht
    obtain ⟨z, hz, hmem⟩ := ht
    exact ⟨z, hmem, hz⟩
  · -- the base takes a value of its list, and the view the image of it
    obtain ⟨hb, m, ds', zs, zo, hm, hmc, rfl, rfl, hbase, rfl⟩ := h.view_ok hn hc hk hds
    obtain ⟨z, hz, hVz⟩ := ih base hb (h.base hn hk) (fun j m hj => hmag j m (.view hn hk hj)) hm
      hmc (hV.operand hn (by simp [hk, Kind.valueOperands])) hbase
    rw [hk] at ht
    have hVid : V id = ((zs * z + zo : ℤ) : ℚ) := by
      simp only [Kind.Takes, toRat_fin] at ht
      rw [ht, hVz]
      push_cast
      ring
    have henc := encloses_of_derivedAlong h.precede V id n hn hV
    rw [hVid] at henc
    refine ⟨zs * z + zo, mem_sortedValues.2 (List.mem_map.2 ⟨z, hz, ?_⟩), hVid⟩
    exact toInt64_image_of_abs_le_max
      ((henc.abs_le_of_boundsBelow (hmag id n (.refl id) hn)).trans hB₆₃)
  · -- a value within the bounds and whole is in the range
    have henc := encloses_of_derivedAlong h.precede V id n hn hV
    rw [hc] at henc
    obtain ⟨z, hz⟩ := henc.2.2 rfl
    rw [hz] at henc
    exact ⟨z, (domainValues_range_mem_of_bound hB₆₃ hn hc hk (hmag id n (.refl id) hn) hds z).2
      ⟨henc.1, henc.2.1⟩, hz⟩

/-- Every value of the list lies within the bounds of the node, when the bounds on the chain are
below `2^53`. -/
theorem domainValues_enclosed (h : b.DomainReady id)
    (hmag : ∀ j m, DomainPath b.nodes id j → b.nodes[j]? = some m →
      BoundsBelow m.lower m.upper (2 ^ 53))
    (hn : b.nodes[id]? = some n) (hc : n.continuous = false) {ds : List Int}
    (hds : domainValues b.nodes limit id = .ok ds) : ∀ z ∈ ds, Encloses n.lower n.upper false z :=
  domainValues_enclosed_of_bound (by norm_num) h hmag hn hc hds

/-- The image of a view, read exactly: the sorted image of its base's list under `zs · v + zo`. -/
theorem domainValues_view_image (h : b.DomainReady id)
    (hmag : ∀ j m, DomainPath b.nodes id j → b.nodes[j]? = some m →
      BoundsBelow m.lower m.upper (2 ^ 53))
    (hn : b.nodes[id]? = some n) (hc : n.continuous = false) {sh : ViewShape} {base : Nat}
    {scale offset : ERat} (hk : n.kind = .view sh base scale offset) {ds : List Int}
    (hds : domainValues b.nodes limit id = .ok ds) :
    ∃ (zs zo : ℤ) (ds' : List ℤ), scale = fin zs ∧ offset = fin zo ∧
      domainValues b.nodes limit base = .ok ds' ∧ ds = sortedValues (ds'.map fun v => zs * v + zo) :=
  domainValues_view_image_of_bound (by norm_num) h hmag hn hc hk hds

/-- The list holds every value the node takes, along the values it reads, when the bounds on the
chain are below `2^53`. -/
theorem domainValues_takes (h : b.DomainReady id)
    (hmag : ∀ j m, DomainPath b.nodes id j → b.nodes[j]? = some m →
      BoundsBelow m.lower m.upper (2 ^ 53))
    (hn : b.nodes[id]? = some n) (hc : n.continuous = false) {V : Nat → ℚ}
    (hV : b.DerivedAlong V id) {ds : List Int} (hds : domainValues b.nodes limit id = .ok ds) :
    ∃ z ∈ ds, V id = z :=
  domainValues_takes_of_bound (by norm_num) h hmag hn hc hV hds

/-- Explicit domains are right. In a builder that requests reach, take a node with no pinned sum
below it. `domainValues` fails with `continuousDomain j` exactly when `j` is the node and the node
is continuous. For a node marked whole it fails only with `domainTooLarge j`, where `j` ends the
chain of views and its bounds are around more integers than the limit, and then it does fail. When
it succeeds and the bounds on the chain are below `2^53`, the list is strictly increasing and holds
every value the node takes; it is the value list of an enumerated variable, the sorted image
`zs · v + zo` of the base's list for a view, and otherwise the integers within the bounds. -/
theorem domainValues_exact {pins : List Nat} (hb : PinnedReachable b pins) (limit : Nat) {id : Nat}
    {n : Node ERat} (hn : b.nodes[id]? = some n) (hpins : ∀ j, Descendant b.nodes id j → j ∉ pins) :
    (∀ j, domainValues b.nodes limit id = .error (.continuousDomain j) ↔
      j = id ∧ n.continuous = true) ∧
    (n.continuous = false →
      (∀ e, domainValues b.nodes limit id = .error e → ∃ j m sz, e = .domainTooLarge j sz limit ∧
        DomainPath b.nodes id j ∧ b.nodes[j]? = some m ∧ m.kind.RangeDomain ∧
        ¬FitsRange limit m.lower m.upper) ∧
      (∀ j m, DomainPath b.nodes id j → b.nodes[j]? = some m → m.kind.RangeDomain →
        ¬FitsRange limit m.lower m.upper →
        ∃ sz, domainValues b.nodes limit id = .error (.domainTooLarge j sz limit)) ∧
      ((∀ j m, DomainPath b.nodes id j → b.nodes[j]? = some m →
          BoundsBelow m.lower m.upper (2 ^ 53)) →
        ∀ ds, domainValues b.nodes limit id = .ok ds →
          ds.Pairwise (· < ·) ∧
          (∀ V : Nat → ℚ, (∀ j m, Descendant b.nodes id j → b.nodes[j]? = some m →
            m.kind.Takes V (V j)) → ∃ z ∈ ds, V id = z) ∧
          (∀ l u vs, n.kind = .intVar l u (some vs) → ds = vs) ∧
          (∀ sh base scale offset, n.kind = .view sh base scale offset →
            ∃ (zs zo : ℤ) (ds' : List ℤ), scale = fin zs ∧ offset = fin zo ∧
              domainValues b.nodes limit base = .ok ds' ∧
              ds = sortedValues (ds'.map fun v => zs * v + zo)) ∧
          (n.kind.RangeDomain → ∀ z : ℤ, z ∈ ds ↔ n.lower ≤ fin z ∧ fin z ≤ n.upper))) := by
  -- below the node every node carries the bounds it derives, as no pin lies below
  have hder : ∀ j m, Descendant b.nodes id j → b.nodes[j]? = some m →
      b.DerivedFrom m.kind m.lower m.upper m.continuous :=
    fun j m hj hm => hb.boundsDerived j m hm fun i hi => hpins i (hj.trans hi)
  have hready : b.DomainReady id :=
    ⟨hb.reachable.sound.children, fun j m hj => hder j m hj.valueBelow.descendant⟩
  refine ⟨fun j => ⟨fun he => ?_, ?_⟩, fun hc => ⟨fun e he => domainValues_error hready hn hc he,
    fun j m hj hm hk hx => domainValues_of_exceeds hready hn hc hj hm hk hx,
    fun hmag ds hds => ?_⟩⟩
  · -- a node marked whole fails with `domainTooLarge` only
    cases hc : n.continuous with
    | true =>
      rw [domainValues_continuous hn hc] at he
      cases he
      exact ⟨rfl, rfl⟩
    | false =>
      obtain ⟨j', m, sz, he', -⟩ := domainValues_error hready hn hc he
      cases he'
  · rintro ⟨rfl, hc⟩
    exact domainValues_continuous hn hc
  refine ⟨domainValues_sorted hb.reachable.valuesSorted hready.precede hn hc hds, fun V hV => ?_,
    fun l u vs hk => ?_, fun sh base scale offset hk => domainValues_view_image hready hmag hn hc hk hds,
    fun hk => domainValues_range_mem hn hc hk (hmag id n (.refl id) hn) hds⟩
  · -- along the values the node reads every node is marked whole, so every sum there has a finite
    -- offset
    have halong : b.DerivedAlong V id :=
      ⟨fun j m hj => hder j m hj.descendant,
        fun j m hj hm => (ValueBelow.whole hj n m hn hc (fun k p hk => hder k p hk.descendant) hm).2,
        fun j m hj => hV j m hj.descendant⟩
    exact domainValues_takes hready hmag hn hc halong hds
  · rw [domainValues_values hn hc hk] at hds
    injection hds with hds
    exact hds.symm

/-- An integer variable `x ∈ [0, 3]` and the view `2x + 1` over it. -/
def affineViewBuilder : Builder ERat :=
  Builder.new.execAll [.addExpr (.intVar 0 3 none), .addExpr (.view .affine 0 (.fin 2) (.fin 1))]

/-- The view `2x + 1` over `x ∈ [0, 3]` lists `[1, 3, 5, 7]`, in increasing order, and every value
it takes is among them. -/
theorem affineView_domain_exact :
    PinnedReachable affineViewBuilder [] ∧
      affineViewBuilder.nodes[1]? = some ⟨.view .affine 0 (fin 2) (fin 1), fin 1, fin 7, false, none⟩ ∧
      domainValues affineViewBuilder.nodes 100 1 = .ok [1, 3, 5, 7] ∧
      ([1, 3, 5, 7] : List Int).Pairwise (· < ·) ∧
      ∀ V : Nat → ℚ, (∀ j m, Descendant affineViewBuilder.nodes 1 j →
        affineViewBuilder.nodes[j]? = some m → m.kind.Takes V (V j)) →
        ∃ z ∈ ([1, 3, 5, 7] : List Int), V 1 = z := by
  have hnodes : affineViewBuilder.nodes = #[⟨.intVar 0 3 none, fin 0, fin 3, false, none⟩,
      ⟨.view .affine 0 (fin 2) (fin 1), fin 1, fin 7, false, none⟩] := by
    with_unfolding_all rfl
  have hreach : PinnedReachable affineViewBuilder [] := .exec _ (.exec _ .new)
  have h₀ : affineViewBuilder.nodes[0]? = some ⟨.intVar 0 3 none, fin 0, fin 3, false, none⟩ := by
    rw [hnodes]
    rfl
  have hn : affineViewBuilder.nodes[1]? =
      some ⟨.view .affine 0 (fin 2) (fin 1), fin 1, fin 7, false, none⟩ := by
    rw [hnodes]
    rfl
  have hk₀ : Kind.RangeDomain (.intVar 0 3 none : Kind ERat) :=
    ⟨fun l u vs h => (by cases h), fun sh base scale offset h => (by cases h)⟩
  have hds : domainValues affineViewBuilder.nodes 100 1 = .ok [1, 3, 5, 7] := by
    rw [domainValues_view hn rfl rfl (by decide),
      domainValues_range_fits h₀ rfl hk₀ rfl rfl (by decide +kernel)]
    refine congrArg Except.ok ?_
    rw [sortedValues_of_lt (by decide +kernel)]
    decide +kernel
  -- both nodes on the chain have bounds far below `2^53`
  have hmag : ∀ j m, DomainPath affineViewBuilder.nodes 1 j → affineViewBuilder.nodes[j]? = some m →
      BoundsBelow m.lower m.upper (2 ^ 53) := by
    intro j m _ hm
    rw [hnodes] at hm
    rcases j with _ | _ | j
    · cases hm
      exact ⟨0, 3, rfl, rfl, by norm_num, by norm_num⟩
    · cases hm
      exact ⟨1, 7, rfl, rfl, by norm_num, by norm_num⟩
    · simp at hm
  obtain ⟨-, h⟩ := domainValues_exact hreach 100 hn fun _ _ => List.not_mem_nil
  obtain ⟨-, -, hok⟩ := h rfl
  obtain ⟨hsorted, htakes, -⟩ := hok hmag _ hds
  exact ⟨hreach, hn, hds, hsorted, htakes⟩

/-- An integer variable `x ∈ [0, 3]` and the sum `x` over it, pinned to `1`. -/
def pinnedSumBuilder : Builder ERat :=
  Builder.new.execAll
    [.addExpr (.intVar 0 3 none), .addExpr (.sum [0] [1] (.fin 0)), .setRhs 1 (.fin 1)]

/-- Pinning the sum `x` to `1` moves its bounds to `[1, 1]`, so its domain is `[1]`; yet at `x = 0`
the sum takes `0`, which the list misses. -/
theorem pinnedSumBuilder_domain_misses_value :
    Reachable pinnedSumBuilder ∧
      pinnedSumBuilder.nodes[1]? = some ⟨.sum [0] [1] (fin 0), fin 1, fin 1, false, none⟩ ∧
      domainValues pinnedSumBuilder.nodes 100 1 = .ok [1] ∧
      (∀ j m, Descendant pinnedSumBuilder.nodes 1 j → pinnedSumBuilder.nodes[j]? = some m →
        m.kind.Takes (fun _ => 0) 0) ∧
      ¬∃ z ∈ ([1] : List Int), (0 : ℚ) = z := by
  have hnodes : pinnedSumBuilder.nodes = #[⟨.intVar 0 3 none, fin 0, fin 3, false, none⟩,
      ⟨.sum [0] [1] (fin 0), fin 1, fin 1, false, none⟩] := by
    with_unfolding_all rfl
  have hn : pinnedSumBuilder.nodes[1]? = some ⟨.sum [0] [1] (fin 0), fin 1, fin 1, false, none⟩ := by
    rw [hnodes]
    rfl
  have hk : Kind.RangeDomain (.sum [0] [1] (fin 0) : Kind ERat) :=
    ⟨fun l u vs h => (by cases h), fun sh base scale offset h => (by cases h)⟩
  refine ⟨.exec _ (.exec _ (.exec _ .new)), hn, ?_, fun j m _ hm => ?_, by simp⟩
  · rw [domainValues_range_fits hn rfl hk rfl rfl (by decide +kernel)]
    exact congrArg Except.ok (by decide +kernel)
  · rw [hnodes] at hm
    rcases j with _ | _ | j
    · cases hm
      exact ⟨0, by norm_num, by norm_num, by norm_num⟩
    · cases hm
      norm_num [Kind.Takes]
    · simp at hm

end Builder

end MipLowering
