import MipLowering.Proofs.Lowering.Connectives
import Mathlib.Data.List.Nodup
import Mathlib.Data.List.SplitBy

/-!
# Occurrence bounds and capacity rows

A flow constraint bounds how often each value occurs among its variables. `FlowBounds.build`
starts every value of some domain at `[0, 1]` (AllDifferent) or `[0, n]` (Gcc) and tightens it
by every demand on it, in order; a demand with a positive lower bound on a value of no domain
becomes an unreachable row. Read as a condition on a count `k`, the bounds of a value of some
domain are the conjunction of the default bounds and of every demand on it
(`FlowBounds.allows_build`), and the unreachable rows are the demands on values of no domain
that ask for an occurrence (`FlowBounds.unreachable_build`).

The capacity rows of `FlowRows.capacity` group the binaries by value: each row sums exactly the
binaries of its value, and every value has a row (`FlowRows.capacity_rows_iff`).

## Main results

* `MipLowering.FlowBounds.allows_build`, `MipLowering.FlowBounds.unreachable_build`.
* `MipLowering.FlowRows.capacity_rows_iff`.
-/

namespace MipLowering

namespace FlowBounds

/-- The bounds of `b` let value `v` occur `k` times. -/
def Allows (b : FlowBounds) (v k : Int) : Prop := (b.capacity v).1 ≤ k ∧ k ≤ (b.capacity v).2

/-- The value list of a capacity table. -/
def keys (caps : List (Int × Int × Int)) : List Int := caps.map Prod.fst

theorem keys_tighten (v lb ub : Int) (caps : List (Int × Int × Int)) :
    keys (tighten v lb ub caps) = keys caps := by
  induction caps with
  | nil => rfl
  | cons e rest ih =>
    obtain ⟨w, lo, hi⟩ := e
    unfold tighten
    split
    · rfl
    · exact congrArg (w :: ·) ih

/-- Tightening changes the first entry of `v` only. -/
theorem find?_tighten (v lb ub w : Int) : ∀ caps : List (Int × Int × Int),
    (tighten v lb ub caps).find? (·.1 == w) =
      (caps.find? (·.1 == w)).map fun e => if w = v then (e.1, max e.2.1 lb, min e.2.2 ub) else e
  | [] => rfl
  | (w', lo, hi) :: rest => by
    unfold tighten
    by_cases hv : w' = v
    · subst hv
      by_cases hw : w' = w
      · subst hw
        simp
      · simp [hw, Ne.symm hw]
    · rw [if_neg hv, List.find?_cons, List.find?_cons, find?_tighten v lb ub w rest]
      by_cases hw : w' = w
      · subst hw
        simp [hv]
      · have hne : (w' == w) = false := by simpa using hw
        simp only [hne]

theorem capacity_eq {b : FlowBounds} {v : Int} (hv : v ∈ keys b.capacities) :
    ∃ lo hi, b.capacities.find? (·.1 == v) = some (v, lo, hi) ∧ b.capacity v = (lo, hi) := by
  obtain ⟨e, he, hev⟩ := List.mem_map.mp hv
  have hsome : (b.capacities.find? (·.1 == v)).isSome :=
    List.find?_isSome.mpr ⟨e, he, by simp [hev]⟩
  obtain ⟨e', he'⟩ := Option.isSome_iff_exists.mp hsome
  have hkey : e'.1 = v := by
    have h := List.find?_some he'
    simpa using h
  obtain ⟨w, lo, hi⟩ := e'
  simp only at hkey
  subst hkey
  exact ⟨lo, hi, he', by simp [capacity, he']⟩

/-- A demand on a value with bounds conjoins its own bounds. -/
theorem allows_demand {b : FlowBounds} {w : Int} (hw : w ∈ keys b.capacities)
    (d : Int × Int × Int) (k : Int) :
    (b.demand d).Allows w k ↔ b.Allows w k ∧ (d.1 = w → d.2.1 ≤ k ∧ k ≤ d.2.2) := by
  obtain ⟨v, lb, ub⟩ := d
  obtain ⟨lo, hi, hfind, hcap⟩ := capacity_eq hw
  have hany : b.capacities.any (·.1 == v) = (v ∈ keys b.capacities) := by
    simp [keys, List.any_eq_true]
  unfold demand
  simp only
  by_cases hvk : v ∈ keys b.capacities
  · rw [if_pos (by simp [hany, hvk])]
    have hfind' := find?_tighten v lb ub w b.capacities
    rw [hfind, Option.map_some] at hfind'
    simp only [Allows, capacity, hfind', hfind]
    by_cases hwv : w = v
    · subst hwv
      simp only [if_true, max_le_iff, le_min_iff, forall_const]
      tauto
    · simp [hwv, Ne.symm hwv]
  · have hwv : v ≠ w := fun h => hvk (h ▸ hw)
    rw [if_neg (by simp [hany, hvk])]
    -- the bounds are untouched and the demand is on another value
    split <;> exact ⟨fun h => ⟨h, fun h' => absurd h' hwv⟩, fun h => h.1⟩

theorem keys_demand (b : FlowBounds) (d : Int × Int × Int) :
    keys (b.demand d).capacities = keys b.capacities := by
  unfold demand
  simp only
  split
  · exact keys_tighten _ _ _ _
  · split <;> rfl

/-- A demand adds an unreachable row when its value has no bounds and it asks for an
occurrence. -/
theorem unreachable_demand (b : FlowBounds) (d : Int × Int × Int) :
    (b.demand d).unreachable = b.unreachable ++
      if d.1 ∉ keys b.capacities ∧ 0 < d.2.1 then [(d.1, d.2.1)] else [] := by
  obtain ⟨v, lb, ub⟩ := d
  have hany : b.capacities.any (·.1 == v) = (v ∈ keys b.capacities) := by
    simp [keys, List.any_eq_true]
  unfold demand
  simp only
  by_cases hvk : v ∈ keys b.capacities
  · rw [if_pos (by simp [hany, hvk])]
    simp [hvk]
  · rw [if_neg (by simp [hany, hvk])]
    by_cases hlb : 0 < lb
    · simp [hvk, hlb]
    · simp [hvk, hlb]

section Demands

variable (ds : List (Int × Int × Int))

/-- The demands are read in order: each one conjoins its bounds. -/
theorem allows_foldl : ∀ (b : FlowBounds) {w : Int}, w ∈ keys b.capacities → ∀ k,
    ((ds.foldl demand b).Allows w k ↔
      b.Allows w k ∧ ∀ d ∈ ds, d.1 = w → d.2.1 ≤ k ∧ k ≤ d.2.2) := by
  induction ds with
  | nil => simp
  | cons d ds ih =>
    intro b w hw k
    rw [List.foldl_cons, ih (b.demand d) (keys_demand b d ▸ hw) k, allows_demand hw d k,
      List.forall_mem_cons, and_assoc]

theorem unreachable_foldl : ∀ (b : FlowBounds),
    (ds.foldl demand b).unreachable = b.unreachable ++
      (ds.filter fun d => d.1 ∉ keys b.capacities ∧ 0 < d.2.1).map fun d => (d.1, d.2.1) := by
  induction ds with
  | nil => simp
  | cons d ds ih =>
    intro b
    rw [List.foldl_cons, ih (b.demand d), unreachable_demand, keys_demand, List.filter_cons]
    by_cases hd : d.1 ∉ keys b.capacities ∧ 0 < d.2.1
    · simp [hd]
    · simp [hd]

end Demands

/-! ### The bounds of a flow constraint -/

theorem mem_eraseRepsBy_loop (x : Int) : ∀ (a : Int) (l acc : List Int),
    x ∈ List.eraseRepsBy.loop (· == ·) a l acc ↔ x = a ∨ x ∈ l ∨ x ∈ acc
  | a, [], acc => by simp [List.eraseRepsBy.loop, or_comm]
  | a, a' :: l, acc => by
    rw [List.eraseRepsBy.loop]
    cases hb : (a == a') with
    | true =>
      -- a repeat of `a` is skipped
      obtain rfl := beq_iff_eq.mp hb
      rw [mem_eraseRepsBy_loop x a l acc]
      simp only [List.mem_cons]
      tauto
    | false =>
      rw [mem_eraseRepsBy_loop x a' l (a :: acc)]
      simp only [List.mem_cons]
      tauto

/-- Erasing repeats keeps every value. -/
theorem mem_eraseReps {x : Int} {l : List Int} : x ∈ l.eraseReps ↔ x ∈ l := by
  cases l with
  | nil => rfl
  | cons a l =>
    show x ∈ List.eraseRepsBy.loop (· == ·) a l [] ↔ _
    rw [mem_eraseRepsBy_loop]
    simp

section Build

variable {kind : FlowKind} {domains : List (List Int)} {values lb ub : List Int}

/-- Every value of some domain has bounds: the default ones, with every demand on it conjoined.
For a count between `0` and the number of variables the default bounds say only that
AllDifferent lets a value occur once. -/
theorem allows_build {w : Int} (hw : w ∈ domains.flatten) {k : Int} (hk : 0 ≤ k)
    (hkn : k ≤ domains.length) :
    (build kind domains values lb ub).Allows w k ↔
      (kind = .allDifferent → k ≤ 1) ∧
        ∀ d ∈ values.zip (lb.zip ub), d.1 = w → d.2.1 ≤ k ∧ k ≤ d.2.2 := by
  have hvals : w ∈ ((domains.flatten.mergeSort (· ≤ ·)).eraseReps) :=
    mem_eraseReps.mpr (List.mem_mergeSort.mpr hw)
  unfold build
  rw [allows_foldl _ _ (by simpa [keys] using hvals)]
  refine and_congr_left fun _ => ?_
  -- the start bounds of `w` are `[0, 1]` or `[0, n]`
  have hfind : ∀ dub : Int, (((domains.flatten.mergeSort (· ≤ ·)).eraseReps).map
      fun v => (v, (0 : Int), dub)).find? (·.1 == w) = some (w, 0, dub) := by
    intro dub
    rw [List.find?_map]
    have hsome : ((domains.flatten.mergeSort (· ≤ ·)).eraseReps).find?
        ((fun x : Int × Int × Int => x.1 == w) ∘ fun v => (v, (0 : Int), dub)) = some w := by
      have hs : (((domains.flatten.mergeSort (· ≤ ·)).eraseReps).find?
          ((fun x : Int × Int × Int => x.1 == w) ∘ fun v => (v, (0 : Int), dub))).isSome :=
        List.find?_isSome.mpr ⟨w, hvals, by simp⟩
      obtain ⟨a, ha⟩ := Option.isSome_iff_exists.mp hs
      have hkey := List.find?_some ha
      simp only [Function.comp_apply, beq_iff_eq] at hkey
      rw [ha, hkey]
    rw [hsome]
    rfl
  cases kind <;> simp [Allows, capacity, hfind, hk, hkn]

/-- The unreachable rows are the demands on values of no domain that ask for an occurrence. -/
theorem unreachable_build :
    (build kind domains values lb ub).unreachable =
      ((values.zip (lb.zip ub)).filter fun d => d.1 ∉ domains.flatten ∧ 0 < d.2.1).map
        fun d => (d.1, d.2.1) := by
  unfold build
  rw [unreachable_foldl]
  simp only [List.nil_append, keys, List.map_map]
  congr 1
  refine List.filter_congr fun d _ => ?_
  simp [mem_eraseReps]

end Build

end FlowBounds

/-! ### Capacity rows -/

namespace FlowRows

/-- The binaries of a flow grouped by value, in increasing order of value. -/
def valueGroups (cells : List (Int × Nat)) : List (List (Int × Nat)) :=
  (cells.mergeSort fun p q => decide (p.1 ≤ q.1)).splitBy fun p q => p.1 == q.1

/-- The row summing a group of binaries. -/
def groupRow (g : List (Int × Nat)) : Row ERat :=
  g.foldl (fun r q => r.addVar q.2 Scalar.one) (Row.empty Scalar.zero Scalar.zero)

theorem capacity_eq (f : FlowRows ERat) :
    f.capacity =
      (valueGroups f.cells.toList).filterMap fun g => g.head?.map fun p => (p.1, groupRow g) :=
  rfl

section Groups

variable {cells : List (Int × Nat)}

theorem sorted_mergeSort_cells :
    (cells.mergeSort fun p q => decide (p.1 ≤ q.1)).Pairwise fun p q => p.1 ≤ q.1 := by
  have h : (cells.mergeSort fun p q => decide (p.1 ≤ q.1)).Pairwise
      fun p q => decide (p.1 ≤ q.1) = true :=
    List.pairwise_mergeSort (fun a b c hab hbc => by simp only [decide_eq_true_eq] at *; omega)
      (fun a b => by simp only [Bool.or_eq_true, decide_eq_true_eq]; omega) cells
  exact h.imp fun hpq => by simpa using hpq

/-- The binaries of one group all stand for one value. -/
theorem key_eq_of_mem_valueGroups {g : List (Int × Nat)} (hg : g ∈ valueGroups cells)
    {p q : Int × Nat} (hp : p ∈ g) (hq : q ∈ g) : p.1 = q.1 := by
  have hchain : (g.map Prod.fst).IsChain (· = ·) :=
    (List.isChain_map Prod.fst).mpr
      ((List.isChain_of_mem_splitBy hg).imp fun x y h => by simpa using h)
  by_contra hpq
  exact hpq (hchain.pairwise.forall (List.mem_map_of_mem hp) (List.mem_map_of_mem hq) hpq)

theorem ne_nil_of_mem_valueGroups {g : List (Int × Nat)} (hg : g ∈ valueGroups cells) : g ≠ [] :=
  List.ne_nil_of_mem_splitBy hg

/-- The value of a non-empty group. -/
def key (g : List (Int × Nat)) : Int := (g.head?.map Prod.fst).getD 0

theorem key_eq {g : List (Int × Nat)} (hg : g ∈ valueGroups cells) {p : Int × Nat} (hp : p ∈ g) :
    key g = p.1 := by
  obtain ⟨q, rest, rfl⟩ := List.exists_cons_of_ne_nil (ne_nil_of_mem_valueGroups hg)
  exact key_eq_of_mem_valueGroups hg List.mem_cons_self hp

/-- Groups come in strictly increasing order of value: the cells are sorted, and a group ends
where the value changes. -/
theorem keys_increasing : ((valueGroups cells).map key).Pairwise (· < ·) := by
  have hsorted : (valueGroups cells).Pairwise fun g₁ g₂ => ∀ p ∈ g₁, ∀ q ∈ g₂, p.1 ≤ q.1 := by
    have h : (cells.mergeSort fun p q => decide (p.1 ≤ q.1)).Pairwise fun p q => p.1 ≤ q.1 :=
      sorted_mergeSort_cells
    rw [← List.flatten_splitBy (fun p q : Int × Nat => p.1 == q.1) (cells.mergeSort _),
      List.pairwise_flatten] at h
    exact h.2
  have hbreak : (valueGroups cells).IsChain fun a b =>
      ∃ ha hb, ((a.getLast ha).1 == (b.head hb).1) = false :=
    List.isChain_getLast_head_splitBy (fun p q : Int × Nat => p.1 == q.1)
      (cells.mergeSort fun p q => decide (p.1 ≤ q.1))
  refine List.IsChain.pairwise ((List.isChain_map key).mpr ?_)
  refine List.isChain_iff_getElem.mpr fun i hi => ?_
  have hmem₁ : (valueGroups cells)[i] ∈ valueGroups cells := List.getElem_mem _
  have hmem₂ : (valueGroups cells)[i + 1] ∈ valueGroups cells := List.getElem_mem _
  obtain ⟨ha, hb, hne⟩ := hbreak.getElem i hi
  have hle := hsorted.isChain.getElem i hi
  rw [key_eq hmem₁ (List.getLast_mem ha), key_eq hmem₂ (List.head_mem hb)]
  have h₁ := hle _ (List.getLast_mem ha) _ (List.head_mem hb)
  have h₂ : (((valueGroups cells)[i]).getLast ha).1 ≠ (((valueGroups cells)[i + 1]).head hb).1 := by
    simpa using hne
  omega

theorem keys_nodup : ((valueGroups cells).map key).Nodup :=
  keys_increasing.imp ne_of_lt

theorem valueGroups_nodup : (valueGroups cells).Nodup := keys_nodup.of_map key

theorem eq_of_key_eq {g₁ g₂ : List (Int × Nat)} (h₁ : g₁ ∈ valueGroups cells)
    (h₂ : g₂ ∈ valueGroups cells) (h : key g₁ = key g₂) : g₁ = g₂ :=
  List.inj_on_of_nodup_map keys_nodup h₁ h₂ h

/-- Of the groups of a list without repeats, keeping one and emptying the others leaves it. -/
theorem flatten_map_ite {G : List (List (Int × Nat))} {g : List (Int × Nat)} (hG : G.Nodup)
    (hg : g ∈ G) : (G.map fun g' => if g' = g then g' else []).flatten = g := by
  induction G with
  | nil => exact absurd hg List.not_mem_nil
  | cons g₀ G ih =>
    rw [List.nodup_cons] at hG
    rw [List.map_cons, List.flatten_cons]
    by_cases h₀ : g₀ = g
    · -- the group occurs once: the rest contributes nothing
      rw [if_pos h₀, List.flatten_eq_nil_iff.mpr, List.append_nil, h₀]
      intro l' hl'
      obtain ⟨g', hg', rfl⟩ := List.mem_map.mp hl'
      rw [if_neg fun h : g' = g => hG.1 (h₀ ▸ h ▸ hg')]
    · rw [if_neg h₀, List.nil_append]
      exact ih hG.2 ((List.mem_cons.mp hg).resolve_left (Ne.symm h₀))

/-- A group holds exactly the binaries of its value: summed, it is the sum over the binaries of
that value. -/
theorem sum_group (w : Int × Nat → Rat) {g : List (Int × Nat)} (hg : g ∈ valueGroups cells) :
    (g.map w).sum = ((cells.filter fun q => q.1 = key g).map w).sum := by
  have hperm := (List.mergeSort_perm cells fun p q => decide (p.1 ≤ q.1)).filter
    fun q => decide (q.1 = key g)
  rw [← (hperm.map w).sum_eq, ← List.flatten_splitBy (fun p q : Int × Nat => p.1 == q.1)
    (cells.mergeSort _), List.filter_flatten]
  have hgroups : (valueGroups cells).map (List.filter fun q => decide (q.1 = key g)) =
      (valueGroups cells).map fun g' => if g' = g then g' else [] := by
    refine List.map_congr_left fun g' hg' => ?_
    by_cases hg'g : g' = g
    · subst hg'g
      rw [if_pos rfl, List.filter_eq_self]
      intro q hq
      simp [key_eq hg' hq]
    · rw [if_neg hg'g, List.filter_eq_nil_iff]
      intro q hq hkey
      exact hg'g (eq_of_key_eq hg' hg (by simpa [key_eq hg' hq] using hkey))
  rw [show List.splitBy (fun p q : Int × Nat => p.1 == q.1)
      (cells.mergeSort fun p q => decide (p.1 ≤ q.1)) = valueGroups cells from rfl, hgroups,
    flatten_map_ite valueGroups_nodup hg]

end Groups

/-- Adding columns with finite coefficients keeps the bounds and adds their weighted values. -/
theorem foldl_addVar (c : Int × Nat → Rat) (g : List (Int × Nat)) :
    ∀ r : Row ERat, r.FiniteCoefs →
      (g.foldl (fun r q => r.addVar q.2 (.fin (c q))) r).FiniteCoefs ∧
      (g.foldl (fun r q => r.addVar q.2 (.fin (c q))) r).lhs = r.lhs ∧
      (g.foldl (fun r q => r.addVar q.2 (.fin (c q))) r).rhs = r.rhs ∧
      ∀ W, (g.foldl (fun r q => r.addVar q.2 (.fin (c q))) r).value W =
        r.value W + (g.map fun q => c q * (W.getD q.2 Scalar.zero).toRat).sum := by
  induction g with
  | nil => exact fun r hr => ⟨hr, rfl, rfl, fun W => by simp⟩
  | cons q g ih =>
    intro r hr
    obtain ⟨hfin, hl, hr', hval⟩ := ih (r.addVar q.2 (.fin (c q))) (hr.addVar q.2 (c q))
    refine ⟨hfin, by rw [List.foldl_cons, hl, Row.addVar_lhs],
      by rw [List.foldl_cons, hr', Row.addVar_rhs], fun W => ?_⟩
    rw [List.foldl_cons, hval, Row.value_addVar hr, List.map_cons, List.sum_cons]
    ring

/-- A value's row sums its binaries with coefficient `1`. -/
theorem groupRow_spec (g : List (Int × Nat)) :
    (groupRow g).FiniteCoefs ∧
      ∀ W, (groupRow g).value W = (g.map fun q => (W.getD q.2 Scalar.zero).toRat).sum := by
  obtain ⟨hfin, -, -, hval⟩ :=
    foldl_addVar (fun _ => 1) g _ (Row.finiteCoefs_empty Scalar.zero Scalar.zero)
  refine ⟨hfin, fun W => ?_⟩
  rw [groupRow, show (Scalar.one : ERat) = .fin 1 from rfl, hval, Row.value_empty, zero_add]
  simp

theorem finiteCoefs_of_mem_capacity {f : FlowRows ERat} {p : Int × Row ERat}
    (hp : p ∈ f.capacity) : p.2.FiniteCoefs := by
  rw [capacity_eq] at hp
  obtain ⟨g, -, hgp⟩ := List.mem_filterMap.mp hp
  cases g with
  | nil => cases hgp
  | cons q₀ rest =>
    cases hgp
    exact (groupRow_spec _).1

/-- The capacity rows read as bounds on sums: they all hold exactly when, for every value of a
binary, the binaries of that value sum within the value's bounds. -/
theorem capacity_rows_iff (f : FlowRows ERat) (Φ : Int → Rat → Prop) (W : Array ERat) :
    (∀ p ∈ f.capacity, Φ p.1 (p.2.value W)) ↔
      ∀ v ∈ f.cells.toList.map Prod.fst,
        Φ v ((f.cells.toList.filter fun q => q.1 = v).map
          fun q => (W.getD q.2 Scalar.zero).toRat).sum := by
  rw [capacity_eq]
  constructor
  · intro h v hv
    obtain ⟨q, hq, rfl⟩ := List.mem_map.mp hv
    -- the binary lies in some group, whose value is its value
    obtain ⟨g, hg, hqg⟩ : ∃ g ∈ valueGroups f.cells.toList, q ∈ g := by
      refine List.mem_flatten.mp ?_
      rw [show (valueGroups f.cells.toList).flatten = f.cells.toList.mergeSort _ from
        List.flatten_splitBy _ _]
      exact List.mem_mergeSort.mpr hq
    obtain ⟨q₀, rest, rfl⟩ := List.exists_cons_of_ne_nil (ne_nil_of_mem_valueGroups hg)
    have hkey : key (q₀ :: rest) = q.1 := key_eq hg hqg
    have hp := h (q₀.1, groupRow (q₀ :: rest)) (List.mem_filterMap.mpr ⟨q₀ :: rest, hg, rfl⟩)
    rw [(groupRow_spec _).2, sum_group _ hg, hkey] at hp
    rwa [show q₀.1 = q.1 from hkey] at hp
  · intro h p hp
    obtain ⟨g, hg, hgp⟩ := List.mem_filterMap.mp hp
    obtain ⟨q₀, rest, rfl⟩ := List.exists_cons_of_ne_nil (ne_nil_of_mem_valueGroups hg)
    cases hgp
    have hq₀ : q₀ ∈ (valueGroups f.cells.toList).flatten :=
      List.mem_flatten.mpr ⟨_, hg, List.mem_cons_self⟩
    rw [show (valueGroups f.cells.toList).flatten = f.cells.toList.mergeSort _ from
      List.flatten_splitBy _ _, List.mem_mergeSort] at hq₀
    rw [(groupRow_spec _).2, sum_group _ hg]
    exact h q₀.1 (List.mem_map_of_mem hq₀)

end FlowRows

/-! ### The binaries of one variable -/

section OneHot

open ERat

variable (w : Int × Nat → ERat)

theorem ofBool_inj {c c' : Bool} : ofBool c = ofBool c' ↔ c = c' := by
  cases c <;> cases c' <;> decide

/-- Binaries that are all off add nothing, weighted or not. -/
theorem sums_of_off {B : List (Int × Nat)} (hoff : ∀ q ∈ B, w q = ofBool false) :
    (B.map fun q => (w q).toRat).sum = 0 ∧ (B.map fun q => (q.1 : Rat) * (w q).toRat).sum = 0 := by
  constructor <;> refine List.sum_eq_zero fun x hx => ?_ <;>
    obtain ⟨q, hq, rfl⟩ := List.mem_map.mp hx <;> simp [hoff q hq]

/-- Binaries summing to `0` are all off. -/
theorem off_of_sum_eq_zero {B : List (Int × Nat)} (hbin : ∀ q ∈ B, ∃ c : Bool, w q = ofBool c)
    (hsum : (B.map fun q => (w q).toRat).sum = 0) : ∀ q ∈ B, w q = ofBool false := by
  have hnonneg : ∀ x ∈ B.map fun q => (w q).toRat, 0 ≤ x := by
    intro x hx
    obtain ⟨q, hq, rfl⟩ := List.mem_map.mp hx
    obtain ⟨c, hc⟩ := hbin q hq
    cases c <;> simp [hc]
  intro q hq
  obtain ⟨c, hc⟩ := hbin q hq
  have h0 := List.all_zero_of_le_zero_le_of_sum_eq_zero hnonneg hsum (List.mem_map_of_mem hq)
  cases c
  · exact hc
  · simp [hc] at h0

/-- The binaries of one variable, one per value of its domain, which has no repeats: they sum to
`1` and weight their values to `a` exactly when `a` is a value of the domain and the binary of
each value is on exactly when it is `a`. -/
theorem oneHot_iff (a : Rat) : ∀ {B : List (Int × Nat)}, (B.map Prod.fst).Nodup →
    (∀ q ∈ B, ∃ c : Bool, w q = ofBool c) →
    (((B.map fun q => (w q).toRat).sum = 1 ∧ a = (B.map fun q => (q.1 : Rat) * (w q).toRat).sum) ↔
      (∃ q ∈ B, a = q.1) ∧ ∀ q ∈ B, w q = ofBool (decide (a = q.1)))
  | [], _, _ => by simp
  | q :: B, hnd, hbin => by
    rw [List.map_cons, List.nodup_cons] at hnd
    have hnot : ∀ q' ∈ B, q'.1 ≠ q.1 := fun q' hq' h => hnd.1 (h ▸ List.mem_map_of_mem hq')
    obtain ⟨c, hc⟩ := hbin q List.mem_cons_self
    have hbin' : ∀ q' ∈ B, ∃ c : Bool, w q' = ofBool c :=
      fun q' hq' => hbin q' (List.mem_cons_of_mem _ hq')
    simp only [List.map_cons, List.sum_cons, List.mem_cons, exists_eq_or_imp, forall_eq_or_imp,
      hc, ofBool_inj, ERat.toRat_ofBool]
    cases c with
    | true =>
      -- the first binary is on: the others are off, and the value is its value
      simp only [if_true, mul_one]
      constructor
      · rintro ⟨h₁, h₂⟩
        have hoff := off_of_sum_eq_zero w hbin' (by linarith)
        have ha : a = q.1 := by
          rw [(sums_of_off w hoff).2] at h₂
          linarith
        refine ⟨.inl ha, by simp [ha], fun q' hq' => ?_⟩
        rw [hoff q' hq', ofBool_inj]
        simp [ha, Ne.symm (hnot q' hq')]
      · rintro ⟨-, hq, hrest⟩
        have ha : a = q.1 := by simpa using hq.symm
        have hoff : ∀ q' ∈ B, w q' = ofBool false := fun q' hq' => by
          rw [hrest q' hq', ofBool_inj]
          simpa [ha] using Ne.symm (hnot q' hq')
        obtain ⟨h₁, h₂⟩ := sums_of_off w hoff
        rw [h₁, h₂, ha]
        simp
    | false =>
      -- the first binary is off: the others carry the value
      have ih := oneHot_iff a hnd.2 hbin'
      simp only [Bool.false_eq_true, if_false, zero_add, mul_zero]
      rw [ih]
      constructor
      · rintro ⟨⟨q', hq', ha⟩, hrest⟩
        exact ⟨.inr ⟨q', hq', ha⟩, by simpa [ha] using hnot q' hq', hrest⟩
      · rintro ⟨hex, hq, hrest⟩
        have hne : a ≠ q.1 := by simpa using hq
        exact ⟨hex.resolve_left hne, hrest⟩

/-- The binaries of value `v` in a one-hot block of a variable with value `a` add `[a = v]` once
for each binary of `v`. -/
theorem sum_filter_oneHot (a : Rat) (v : Int) : ∀ {B : List (Int × Nat)},
    (∀ q ∈ B, w q = ofBool (decide (a = q.1))) →
    (((B.filter fun q => q.1 = v).map fun q => (w q).toRat).sum =
      (if a = v then 1 else 0) * ((B.map Prod.fst).count v : Rat))
  | [], _ => by simp
  | q :: B, hB => by
    have ih := sum_filter_oneHot a v fun q' hq' => hB q' (List.mem_cons_of_mem _ hq')
    rw [List.filter_cons, List.map_cons, List.count_cons]
    by_cases hq : q.1 = v
    · rw [if_pos (by simpa using hq), List.map_cons, List.sum_cons, ih, hB q List.mem_cons_self,
        ERat.toRat_ofBool, hq]
      simp only [beq_self_eq_true, if_true, Nat.cast_add, Nat.cast_one, decide_eq_true_eq]
      ring
    · rw [if_neg (by simpa using hq), ih]
      simp [hq]

/-- The binaries of value `v` over the one-hot blocks of several variables count the variables
whose value is `v`. -/
theorem sum_filter_blocks (v : Int) : ∀ {blocks : List (Rat × List (Int × Nat))},
    (∀ p ∈ blocks, (p.2.map Prod.fst).Nodup ∧ (∃ q ∈ p.2, p.1 = q.1) ∧
      ∀ q ∈ p.2, w q = ofBool (decide (p.1 = q.1))) →
    ((((blocks.map Prod.snd).flatten.filter fun q => q.1 = v).map fun q => (w q).toRat).sum =
      ((blocks.map Prod.fst).count (v : Rat) : Rat))
  | [], _ => by simp
  | p :: blocks, hb => by
    obtain ⟨hnd, ⟨q, hq, ha⟩, hw⟩ := hb p List.mem_cons_self
    have ih := sum_filter_blocks v fun p' hp' => hb p' (List.mem_cons_of_mem _ hp')
    rw [List.map_cons, List.flatten_cons, List.filter_append, List.map_append, List.sum_append, ih,
      sum_filter_oneHot w p.1 v hw, List.map_cons, List.count_cons, Nat.cast_add]
    by_cases hav : p.1 = v
    · -- the block holds `v` once
      have hmem : v ∈ p.2.map Prod.fst := by
        have : (q.1 : Rat) = v := ha ▸ hav
        exact List.mem_map.mpr ⟨q, hq, by exact_mod_cast this⟩
      rw [List.count_eq_one_of_mem hnd hmem]
      simp [hav, add_comm]
    · simp [hav]

end OneHot

end MipLowering
