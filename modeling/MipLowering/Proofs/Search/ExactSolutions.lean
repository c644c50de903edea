import Mathlib
import MipLowering.Proofs.Search.AllSolutions
import MipLowering.Scalar.Exact

/-!
# Every solution, read exactly

With exact arithmetic the candidates of a column are the values it takes: the one value of a
fixed continuous column, the integers between the bounds of an integral column, or its listed
values between them. A continuous column with bounds that differ cannot be enumerated, nor an
integral column without a value list whose bounds are not both finite or, rounded in, lie
`2^16` or more apart: `2^16` integers are enumerated, `2^16 + 1` are not. The integers are
counted out from the lower bound truncated to 64 bits, so they are the column's own only when
its rounded-in bounds are 64-bit integers. Doubles hold every integer up to `2^53` in magnitude
and no more, so the search lists the integers of a column as they are exactly when they lie
within `2^53` (`Column.InDoubleRange`); above, two of them can become one double.

So the solutions listed for a searchable model whose integral columns list integers within
`2^53`, without a failure limit, are each exact solution once, whatever the heuristics; with a
failure limit, a prefix of them; and none when a column cannot be enumerated.

## Main definitions

* `MipLowering.Column.Unenumerable`, `MipLowering.Column.InWordRange`,
  `MipLowering.Column.InDoubleRange`, `MipLowering.Column.Takes`.
* `MipLowering.FlatModel.IsSolution` — a solution read exactly.

## Main results

* `MipLowering.Search.candidates_eq_none_iff` — which columns cannot be enumerated.
* `MipLowering.Search.mem_candidates_iff` — the candidates are the values a column takes.
* `MipLowering.FlatModel.allSolutions_exact` — the solutions listed are the exact solutions.
* `MipLowering.FlatModel.allSolutions_enumerates_full_span` — a column holding `2^16` integers
  is enumerated.
-/

namespace MipLowering

open Search ERat

namespace Column

/-- A column the search cannot enumerate, read exactly: a continuous column whose bounds differ,
or an integral column without a value list whose bounds are not both finite or, rounded in, lie
`maxSpan = 2^16` or more apart. -/
def Unenumerable (c : Column ERat) : Prop :=
  if c.isIntegral then
    c.values = none ∧ ∀ q r, c.lower = .fin q → c.upper = .fin r → maxSpan ≤ r.floor - q.ceil
  else (c.lower == c.upper) = false

/-- The bounds of an integral column without a value list, rounded in, are 64-bit integers. -/
def InWordRange (c : Column ERat) : Prop :=
  c.isIntegral = true → c.values = none → ∀ q r, c.lower = .fin q → c.upper = .fin r →
    Scalar.int64Min ≤ q.ceil ∧ q.ceil ≤ Scalar.int64Max ∧
      Scalar.int64Min ≤ r.floor ∧ r.floor ≤ Scalar.int64Max

/-- The integers the search lists for an integral column are doubles: its listed values, or the
integers between its rounded-in bounds, lie within `2^53` in magnitude. -/
def InDoubleRange (c : Column ERat) : Prop :=
  c.isIntegral = true →
    (∀ vs, c.values = some vs → ∀ z ∈ vs, |z| ≤ 2 ^ 53) ∧
    (c.values = none → ∀ q r, c.lower = .fin q → c.upper = .fin r →
      |q.ceil| ≤ 2 ^ 53 ∧ |r.floor| ≤ 2 ^ 53)

theorem InDoubleRange.inWordRange {c : Column ERat} (h : c.InDoubleRange) : c.InWordRange := by
  intro hI hv q r hl hu
  obtain ⟨hq, hr⟩ := (h hI).2 hv q r hl hu
  rw [abs_le] at hq hr
  simp only [Scalar.int64Min, Scalar.int64Max]
  norm_num at hq hr
  omega

/-- A value a column takes, read exactly: an integer within the bounds, and in the value list
when there is one, for an integral column; the lower bound for a continuous one. -/
def Takes (c : Column ERat) (x : ERat) : Prop :=
  if c.isIntegral then
    ∃ z : Int, x = .fin z ∧ c.lower ≤ .fin z ∧ .fin z ≤ c.upper ∧
      ∀ vs, c.values = some vs → z ∈ vs
  else x = c.lower

end Column

/-- A solution of a model, read exactly: one value per column, each taken by its column, and
every row satisfied within the tolerance. -/
def FlatModel.IsSolution (m : FlatModel ERat) (v : Array ERat) : Prop :=
  v.size = m.columns.size ∧
    (∀ (i : Nat) (c : Column ERat), m.columns[i]? = some c → ∃ x, v[i]? = some x ∧ c.Takes x) ∧
    ∀ r ∈ m.rows, r.isSatisfied v tolerance = true

/-! ### The tolerance on whole values -/

namespace ERat

theorem tolerance_eq : (tolerance : ERat) = fin (1 / 1000000000) := by
  change fin (OfScientific.ofScientific 1 true 9) = _
  norm_num

/-- Less than one below an integer `a`, an integer is already at least `a`. -/
theorem intCast_sub_le_iff {t : ℚ} (h0 : 0 ≤ t) (h1 : t < 1) (a z : Int) :
    (a : ℚ) - t ≤ z ↔ a ≤ z := by
  constructor
  · intro h
    have hlt : (a : ℚ) < z + 1 := by linarith
    exact Int.lt_add_one_iff.1 (by exact_mod_cast hlt)
  · intro h
    have hle : (a : ℚ) ≤ z := by exact_mod_cast h
    linarith

/-- An integer is at least an integer `a` less the tolerance exactly when it is at least `a`. -/
theorem fin_sub_tolerance_le_iff (a z : Int) : fin (a : ℚ) - tolerance ≤ fin (z : ℚ) ↔ a ≤ z := by
  rw [tolerance_eq, fin_sub_fin, fin_le_fin]
  exact intCast_sub_le_iff (by norm_num) (by norm_num) a z

end ERat

namespace Search

section Branches

variable {α : Type} [Scalar α] {c : Column α}

theorem candidates_of_continuous (h : c.isIntegral = false) :
    candidates c = if c.lower != c.upper then none else some [c.lower] := by
  simp only [candidates, h, Bool.not_false, ↓reduceIte]

theorem candidates_of_listed {vs : List Int} (h : c.isIntegral = true) (hv : c.values = some vs) :
    candidates c = some ((vs.map Scalar.ofInt).filter fun v =>
      decide (Scalar.ceil c.lower ≤ v) && decide (v ≤ Scalar.floor c.upper)) := by
  simp only [candidates, h, hv, Bool.not_true, Bool.false_eq_true, ↓reduceIte]

theorem candidates_of_unlisted (h : c.isIntegral = true) (hv : c.values = none) :
    candidates c =
      if !Scalar.isFinite (Scalar.floor c.upper - Scalar.ceil c.lower) ||
          decide (Scalar.ofInt maxSpan ≤ Scalar.floor c.upper - Scalar.ceil c.lower) then none
      else some ((List.range (Scalar.toInt64 (Scalar.floor c.upper) + 1 -
          Scalar.toInt64 (Scalar.ceil c.lower)).toNat).map fun k =>
            Scalar.ofInt (Scalar.toInt64 (Scalar.ceil c.lower) + Int.ofNat k)) := by
  simp only [candidates, h, hv, Bool.not_true, Bool.false_eq_true, ↓reduceIte]

/-- A continuous column that can be enumerated has its lower bound as its one candidate. -/
theorem eq_singleton_of_continuous {d : List α} (h : c.isIntegral = false)
    (hd : candidates c = some d) : d = [c.lower] := by
  rw [candidates_of_continuous h] at hd
  split at hd
  · cases hd
  · exact (Option.some.inj hd).symm

/-- An integral column without a value list that can be enumerated passes the span test and
counts its integers out from its truncated lower bound. -/
theorem countOut_of_unlisted {d : List α} (h : c.isIntegral = true) (hv : c.values = none)
    (hd : candidates c = some d) :
    (!Scalar.isFinite (Scalar.floor c.upper - Scalar.ceil c.lower) ||
        decide (Scalar.ofInt maxSpan ≤ Scalar.floor c.upper - Scalar.ceil c.lower)) = false ∧
      d = (List.range (Scalar.toInt64 (Scalar.floor c.upper) + 1 -
        Scalar.toInt64 (Scalar.ceil c.lower)).toNat).map fun k =>
          Scalar.ofInt (Scalar.toInt64 (Scalar.ceil c.lower) + Int.ofNat k) := by
  rw [candidates_of_unlisted h hv] at hd
  split at hd
  · cases hd
  · next hspan => exact ⟨Bool.eq_false_iff.2 hspan, (Option.some.inj hd).symm⟩

end Branches

/-- The span test of an integral column without a value list, read exactly: its bounds are not
both finite, or lie `maxSpan` or more apart once rounded in. -/
theorem spanTest_iff (l u : ERat) :
    (!Scalar.isFinite (Scalar.floor u - Scalar.ceil l) ||
        decide (Scalar.ofInt maxSpan ≤ Scalar.floor u - Scalar.ceil l)) = true ↔
      ∀ q r, l = .fin q → u = .fin r → maxSpan ≤ r.floor - q.ceil := by
  cases l with
  | fin q =>
    cases u with
    | fin r =>
      simp only [floor_fin, ceil_fin, fin_sub_fin, ofInt_eq, fin_le_fin, ← Rat.intCast_sub,
        Rat.intCast_le_intCast, fin.injEq]
      simp [Scalar.isFinite]
    -- a bound that is not finite fails the test, and no rational is it
    | _ => exact ⟨fun _ _ _ _ hu => (by cases hu), fun _ => rfl⟩
  | _ => exact ⟨fun _ _ _ hl _ => (by cases hl), fun _ => by cases u <;> rfl⟩

/-- The integers counted out from `a` up to `b`. -/
theorem mem_countOut_iff {a b : Int} {x : ERat} :
    x ∈ (List.range (b + 1 - a).toNat).map (fun k => Scalar.ofInt (a + Int.ofNat k)) ↔
      ∃ z : Int, x = .fin z ∧ a ≤ z ∧ z ≤ b := by
  simp only [List.mem_map, List.mem_range, ofInt_eq]
  constructor
  · rintro ⟨k, hk, rfl⟩
    exact ⟨a + k, rfl, by omega, by omega⟩
  · rintro ⟨z, rfl, ha, hb⟩
    have hz : a + Int.ofNat (z - a).toNat = z := by
      rw [Int.ofNat_eq_natCast, Int.toNat_of_nonneg (by omega)]
      omega
    exact ⟨(z - a).toNat, by omega, by rw [hz]⟩

theorem nodup_countOut (a b : Int) :
    ((List.range (b + 1 - a).toNat).map (fun k => (Scalar.ofInt (a + Int.ofNat k) : ERat))).Nodup :=
  List.nodup_range.map fun k k' h => by
    have hk := ofInt_injective h
    simp only [Int.ofNat_eq_natCast] at hk
    omega

/-- The columns that cannot be enumerated. -/
theorem candidates_eq_none_iff (c : Column ERat) : candidates c = none ↔ c.Unenumerable := by
  unfold Column.Unenumerable
  cases hI : c.isIntegral with
  | false =>
    rw [candidates_of_continuous hI]
    simp [bne]
  | true =>
    cases hv : c.values with
    | some vs => simp [candidates_of_listed hI hv]
    | none =>
      rw [candidates_of_unlisted hI hv, if_pos rfl, ← spanTest_iff]
      simp only [true_and]
      split
      · next h => exact ⟨fun _ => h, fun _ => rfl⟩
      · next h => exact ⟨fun h' => (by cases h'), fun h' => absurd h' h⟩

/-- The candidates of a column that can be enumerated are the values it takes, when its
rounded-in bounds are 64-bit integers. -/
theorem mem_candidates_iff {c : Column ERat} {d : List ERat} (hd : candidates c = some d)
    (hr : c.InWordRange) (x : ERat) : x ∈ d ↔ c.Takes x := by
  unfold Column.Takes
  cases hI : c.isIntegral with
  | false =>
    rw [eq_singleton_of_continuous hI hd]
    exact List.mem_singleton
  | true =>
    rw [if_pos rfl]
    cases hv : c.values with
    | some vs =>
      rw [candidates_of_listed hI hv, Option.some.injEq] at hd
      subst hd
      simp only [List.mem_filter, List.mem_map, ofInt_eq, Bool.and_eq_true, decide_eq_true_eq,
        Option.some.injEq, forall_eq']
      -- a listed value lies between the rounded-in bounds exactly when it lies between the bounds
      constructor
      · rintro ⟨⟨z, hz, rfl⟩, hlo, hhi⟩
        exact ⟨z, rfl, (ceil_le_fin_iff _ _).1 hlo, (fin_le_floor_iff _ _).1 hhi, hz⟩
      · rintro ⟨z, rfl, hlo, hhi, hz⟩
        exact ⟨⟨z, hz, rfl⟩, (ceil_le_fin_iff _ _).2 hlo, (fin_le_floor_iff _ _).2 hhi⟩
    | none =>
      obtain ⟨hspan, rfl⟩ := countOut_of_unlisted hI hv hd
      -- both bounds are finite, and their rounded-in values are 64-bit integers
      obtain ⟨q, r, hl, hu⟩ : ∃ q r, c.lower = .fin q ∧ c.upper = .fin r :=
        Classical.byContradiction fun hne => Bool.false_ne_true
          (hspan ▸ (spanTest_iff _ _).2 fun q r hl hu => absurd ⟨q, r, hl, hu⟩ hne)
      obtain ⟨h₁, h₂, h₃, h₄⟩ := hr hI hv q r hl hu
      rw [hl, hu, ceil_fin, floor_fin, toInt64_fin h₁ h₂, toInt64_fin h₃ h₄, mem_countOut_iff]
      refine exists_congr fun z => ?_
      have hlo : q.ceil ≤ z ↔ fin q ≤ fin z := by
        rw [← ceil_le_fin_iff, ceil_fin, fin_le_fin, Rat.intCast_le_intCast]
      have hhi : z ≤ r.floor ↔ fin z ≤ fin r := by
        rw [← fin_le_floor_iff, floor_fin, fin_le_fin, Rat.intCast_le_intCast]
      rw [← hlo, ← hhi]
      constructor
      · rintro ⟨hx, h, h'⟩
        exact ⟨hx, h, h', fun _ h => by cases h⟩
      · rintro ⟨hx, h, h', -⟩
        exact ⟨hx, h, h'⟩

/-- The candidates of a column list no value twice when its value list has no repeats. -/
theorem nodup_candidates {c : Column ERat} {d : List ERat} (hd : candidates c = some d)
    (hvals : ∀ vs, c.values = some vs → vs.Nodup) : d.Nodup := by
  cases hI : c.isIntegral with
  | false =>
    rw [eq_singleton_of_continuous hI hd]
    exact List.nodup_singleton _
  | true =>
    cases hv : c.values with
    | some vs =>
      rw [candidates_of_listed hI hv, Option.some.injEq] at hd
      subst hd
      exact ((hvals vs hv).map ofInt_injective).filter _
    | none =>
      rw [(countOut_of_unlisted hI hv hd).2]
      exact nodup_countOut _ _

end Search

namespace FlatModel

variable {m : FlatModel ERat}

/-- Columns that can be enumerated have candidates. -/
theorem isSome_candidates (hen : ∀ c ∈ m.columns, ¬c.Unenumerable) :
    ∀ c ∈ m.columns, (candidates c).isSome := fun c hc =>
  Option.ne_none_iff_isSome.1 fun h => hen c hc ((candidates_eq_none_iff c).1 h)

/-- An assignment of candidates is an assignment of values the columns take, when every column
can be enumerated and has its rounded-in bounds among the 64-bit integers. -/
theorem isCandidate_iff (hen : ∀ c ∈ m.columns, ¬c.Unenumerable)
    (hr : ∀ c ∈ m.columns, c.InWordRange) {v : Array ERat} :
    m.IsCandidate v ↔ v.size = m.columns.size ∧ ∀ (i : Nat) (c : Column ERat),
      m.columns[i]? = some c → ∃ x, v[i]? = some x ∧ c.Takes x := by
  unfold IsCandidate
  refine and_congr_right fun _ => forall₂_congr fun i c => imp_congr_right fun hc => ?_
  have hmem : c ∈ m.columns := Array.mem_of_getElem? hc
  obtain ⟨d, hd⟩ := Option.isSome_iff_exists.1 (isSome_candidates hen c hmem)
  constructor
  · rintro ⟨d', hd', x, hx, hvx⟩
    rw [hd, Option.some.injEq] at hd'
    subst hd'
    exact ⟨x, hvx, (mem_candidates_iff hd (hr c hmem) x).1 hx⟩
  · rintro ⟨x, hvx, hx⟩
    exact ⟨d, hd, x, (mem_candidates_iff hd (hr c hmem) x).2 hx, hvx⟩

/-- When every column can be enumerated and the rounded-in bounds of every integral column
without a value list are 64-bit integers, the solutions listed without a failure limit are each
exact solution once, and those listed with a failure limit are a prefix of them. -/
theorem allSolutions_of_enumerable (hm : m.Searchable)
    (hvals : ∀ c ∈ m.columns, ∀ vs, c.values = some vs → vs.Nodup)
    (hen : ∀ c ∈ m.columns, ¬c.Unenumerable) (hr : ∀ c ∈ m.columns, c.InWordRange)
    (cfg : SearchConfig) :
    ∃ S, m.allSolutions { cfg with failureLimit := 0 } = .ok S ∧ S.Nodup ∧
      (∀ v, v ∈ S ↔ m.IsSolution v) ∧ ∃ F, m.allSolutions cfg = .ok F ∧ F <+: S := by
  obtain ⟨p, hp, h₀, F, hF, hpre⟩ := allSolutions_answer hm (isSome_candidates hen) cfg
  refine ⟨p.answer m, h₀, p.nodup_answer hp fun c hc d hd => nodup_candidates hd (hvals c hc),
    fun v => ?_, F, hF, hpre⟩
  rw [p.mem_answer hp, isCandidate_iff hen hr, IsSolution, and_assoc]

/-- The solutions listed, read exactly. For a searchable model whose value lists have no
repeats: when some column cannot be enumerated, none are listed; otherwise, when every integral
column lists integers within `2^53` in magnitude, which doubles hold, the solutions listed
without a failure limit are each exact solution once, whatever the heuristics, and those listed
with a failure limit are a prefix of them. -/
theorem allSolutions_exact (m : FlatModel ERat) (cfg : SearchConfig) (hm : m.Searchable)
    (hvals : ∀ c ∈ m.columns, ∀ vs, c.values = some vs → vs.Nodup) :
    ((∃ c ∈ m.columns, c.Unenumerable) → m.allSolutions cfg = .ok []) ∧
    ((∀ c ∈ m.columns, ¬c.Unenumerable) → (∀ c ∈ m.columns, c.InDoubleRange) →
      ∃ S, m.allSolutions { cfg with failureLimit := 0 } = .ok S ∧ S.Nodup ∧
        (∀ v, v ∈ S ↔ m.IsSolution v) ∧ ∃ F, m.allSolutions cfg = .ok F ∧ F <+: S) := by
  constructor
  · rintro ⟨c, hc, hu⟩
    exact allSolutions_of_none ⟨c, hc, (candidates_eq_none_iff c).2 hu⟩ cfg
  exact fun hen hd => allSolutions_of_enumerable hm hvals hen (fun c hc => (hd c hc).inWordRange) cfg

/-- One integer column with bounds `0` and `2^16 - 1`, so holding `2^16` integers, and the row
`x ≤ 0`. -/
def spanBoundaryModel : FlatModel ERat where
  columns := #[⟨"x", .integer, .fin 0, .fin 65535, none⟩]
  rows := #[⟨[(0, .fin 1)], .negInf, .fin 0⟩]

theorem spanBoundaryModel_searchable : spanBoundaryModel.Searchable where
  decisions_nodup := List.nodup_nil
  decisions_lt := fun _ h => absurd h List.not_mem_nil
  terms_lt := by simp [spanBoundaryModel]

/-- The column of the model can be enumerated: its rounded-in bounds lie `2^16 - 1` apart. -/
theorem spanBoundaryModel_enumerable : ∀ c ∈ spanBoundaryModel.columns, ¬c.Unenumerable := by
  simp only [spanBoundaryModel, List.mem_toArray, List.mem_singleton, forall_eq,
    Column.Unenumerable]
  intro h
  have hspan := h.2 0 65535 rfl rfl
  revert hspan
  decide +kernel

/-- The integers of the column, `0` to `2^16 - 1`, are doubles. -/
theorem spanBoundaryModel_inDoubleRange : ∀ c ∈ spanBoundaryModel.columns, c.InDoubleRange := by
  simp only [spanBoundaryModel, List.mem_toArray, List.mem_singleton, forall_eq,
    Column.InDoubleRange]
  refine fun _ => ⟨fun _ h => (by cases h), ?_⟩
  rintro - q r ⟨⟩ ⟨⟩
  decide +kernel

/-- The statement at the model with one integer column holding `2^16` integers: the column can be
enumerated and lists doubles, so the solutions listed are the exact ones. -/
theorem spanBoundaryModel_solutions_exact :
    spanBoundaryModel.Searchable ∧
    (∀ c ∈ spanBoundaryModel.columns, ∀ vs, c.values = some vs → vs.Nodup) ∧
    (∀ c ∈ spanBoundaryModel.columns, ¬c.Unenumerable) ∧
    (∀ c ∈ spanBoundaryModel.columns, c.InDoubleRange) ∧
      ∃ S, spanBoundaryModel.allSolutions { ({} : SearchConfig) with failureLimit := 0 } = .ok S ∧
        S.Nodup ∧ (∀ v, v ∈ S ↔ spanBoundaryModel.IsSolution v) ∧
        ∃ F, spanBoundaryModel.allSolutions {} = .ok F ∧ F <+: S := by
  have hvals : ∀ c ∈ spanBoundaryModel.columns, ∀ vs, c.values = some vs → vs.Nodup := by
    simp [spanBoundaryModel]
  exact ⟨spanBoundaryModel_searchable, hvals, spanBoundaryModel_enumerable,
    spanBoundaryModel_inDoubleRange,
    (allSolutions_exact spanBoundaryModel {} spanBoundaryModel_searchable hvals).2
      spanBoundaryModel_enumerable spanBoundaryModel_inDoubleRange⟩

/-- A column whose rounded-in bounds hold `2^16` integers is enumerated, not passed over: the
model with one such column and the row `x ≤ 0` lists the solution `x = 0`. -/
theorem allSolutions_enumerates_full_span :
    ∃ S, spanBoundaryModel.allSolutions {} = .ok S ∧ #[.fin 0] ∈ S := by
  obtain ⟨p, hp, h₀, -⟩ := allSolutions_answer spanBoundaryModel_searchable
    (isSome_candidates spanBoundaryModel_enumerable) {}
  refine ⟨p.answer spanBoundaryModel, h₀, (p.mem_answer hp).2 ⟨?_, ?_⟩⟩
  · -- `0` is an integer between the bounds
    rw [isCandidate_iff spanBoundaryModel_enumerable
      fun c hc => (spanBoundaryModel_inDoubleRange c hc).inWordRange]
    refine ⟨rfl, fun i c hc => ?_⟩
    have hi : i = 0 := by
      have := (Array.getElem?_eq_some_iff.1 hc).1
      simp [spanBoundaryModel] at this
      omega
    subst hi
    simp only [spanBoundaryModel, List.getElem?_toArray, List.getElem?_cons_zero,
      Option.some.injEq] at hc
    subst hc
    refine ⟨.fin 0, rfl, ?_⟩
    show ∃ z : Int, _
    exact ⟨0, rfl, by decide +kernel, by decide +kernel, fun _ h => by cases h⟩
  · -- the row `x ≤ 0` holds at `x = 0`
    simp only [spanBoundaryModel, List.mem_toArray, List.mem_singleton, forall_eq]
    decide +kernel

end FlatModel

end MipLowering
