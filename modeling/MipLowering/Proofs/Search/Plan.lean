import MipLowering.Proofs.Search.Descent

/-!
# The search plan of a model

When the decisions are distinct columns and every term of a row names a column, planning a
model whose columns can all be enumerated succeeds, and the plan it gives is fit for a descent
(`Search.Plan.Fits`): the branching order is a permutation of the columns, whatever the
heuristics, so each column is assigned at exactly one level, with its candidates, in order or
reversed; each row with terms is filed at the place of its last column, so it reads no column
assigned below; and the rows without terms are checked before the descent. A model with a column
that cannot be enumerated has no plan.

## Main definitions

* `MipLowering.FlatModel.Searchable` — decisions and terms name columns, decisions distinct.
* `MipLowering.Search.Plan.Fits` — a plan fit for a descent over a model.

## Main results

* `MipLowering.Search.branchOrder_perm` — the branching order is a permutation of the columns.
* `MipLowering.Search.rowLevel_eq` — the level of a row is the last place of its columns.
* `MipLowering.Search.Plan.ofModel_fits` — planning succeeds with a plan fit for the model.
* `MipLowering.Search.Plan.ofModel_of_none` — no plan when a column cannot be enumerated.
-/

namespace MipLowering

variable {α : Type}

/-- A model fit for planning: its decisions are distinct columns and every term of a row names
a column. -/
structure FlatModel.Searchable (m : FlatModel α) : Prop where
  decisions_nodup : m.decisions.Nodup
  decisions_lt : ∀ v ∈ m.decisions, v < m.columns.size
  terms_lt : ∀ r ∈ m.rows, ∀ t ∈ r.terms, t.1 < m.columns.size

namespace Search

/-! ### Lists and tables -/

/-- A map through `Except` whose every step succeeds. -/
theorem mapM_eq_ok {β γ ε : Type} {f : β → Except ε γ} {g : β → γ} :
    ∀ {l : List β}, (∀ x ∈ l, f x = .ok (g x)) → l.mapM f = .ok (l.map g)
  | [], _ => rfl
  | x :: l, h => by
    rw [List.mapM_cons, h x List.mem_cons_self,
      mapM_eq_ok fun y hy => h y (List.mem_cons_of_mem _ hy)]
    rfl

/-- Writing the places `s, s + 1, …` of distinct columns that fit the table. -/
theorem getElem?_foldl_setPlace {l : List Nat} (hnd : l.Nodup) (s : Nat) {a : Array Nat}
    (hlt : ∀ c ∈ l, c < a.size) (c : Nat) :
    ((l.zip (List.range' s l.length)).foldl (fun a p => a.setIfInBounds p.1 p.2) a)[c]? =
      if c ∈ l then some (s + l.idxOf c) else a[c]? := by
  induction l generalizing s a with
  | nil => simp
  | cons x l ih =>
    have hx : x < a.size := hlt x List.mem_cons_self
    have hlt' : ∀ c ∈ l, c < (a.setIfInBounds x s).size :=
      fun c hc => by simpa using hlt c (List.mem_cons_of_mem _ hc)
    rw [List.length_cons, List.range'_succ, List.zip_cons_cons, List.foldl_cons,
      ih hnd.of_cons (s + 1) hlt']
    by_cases hcx : c = x
    · subst hcx
      simp [(List.nodup_cons.1 hnd).1, Array.getElem?_setIfInBounds_self_of_lt hx]
    · have hne : x ≠ c := Ne.symm hcx
      simp only [List.mem_cons, hcx, false_or, List.idxOf_cons_ne _ hne,
        Array.getElem?_setIfInBounds_ne hne]
      split <;> simp only [Nat.add_right_comm, Nat.add_assoc]

/-- The place of a column in an order of distinct columns is its index there. -/
theorem placeTable_getD {n : Nat} {order : List Nat} (hnd : order.Nodup)
    (hlt : ∀ c ∈ order, c < n) {c : Nat} (hc : c ∈ order) :
    (placeTable n order).getD c 0 = order.idxOf c := by
  have h := getElem?_foldl_setPlace hnd 0 (a := Array.replicate n 0) (by simpa using hlt) c
  unfold placeTable
  rw [List.range_eq_range', Array.getD_eq_getD_getElem?, h, if_pos hc, Nat.zero_add,
    Option.getD_some]

/-- Under a permutation of the columns, the place of a column is its index in the order, less
than the number of columns. -/
theorem placeTable_getD_of_perm {n : Nat} {order : List Nat} (hperm : order.Perm (List.range n))
    {c : Nat} (hc : c < n) :
    (placeTable n order).getD c 0 = order.idxOf c ∧ order.idxOf c < n := by
  have hmem : ∀ c, c ∈ order ↔ c < n := fun c => by rw [hperm.mem_iff, List.mem_range]
  refine ⟨placeTable_getD (hperm.nodup_iff.2 List.nodup_range) (fun c' h => (hmem c').1 h)
    ((hmem c).2 hc), ?_⟩
  rw [← List.length_range (n := n), ← hperm.length_eq]
  exact List.idxOf_lt_length_iff.2 ((hmem c).2 hc)

/-- The rows with level `k` are those whose entry is `k`. -/
theorem mem_rowsWithLevel {ls : List (Option Nat)} {k : Option Nat} {i : Nat} :
    i ∈ rowsWithLevel ls k ↔ ls[i]? = some k := by
  simp only [rowsWithLevel, List.mem_filterMap, beq_iff_eq]
  constructor
  · rintro ⟨⟨j, x⟩, hp, hx⟩
    split at hx
    · next hxk =>
      cases hx
      obtain ⟨q, hq⟩ := List.getElem?_of_mem hp
      rw [List.getElem?_zip_eq_some] at hq
      obtain ⟨hj, hqx⟩ := hq
      have hq' : q < ls.length := by
        by_contra hge
        simp [hge] at hj
      rw [List.getElem?_range hq', Option.some.injEq] at hj
      rw [← hj, hqx, hxk]
    · cases hx
  · intro h
    have hi : i < ls.length := (List.getElem?_eq_some_iff.1 h).1
    have hzip : ((List.range ls.length).zip ls)[i]? = some (i, k) := by
      rw [List.getElem?_zip_eq_some, List.getElem?_range hi]
      exact ⟨rfl, h⟩
    exact ⟨(i, k), List.mem_of_getElem? hzip, by simp⟩

/-- Levels are fit for a descent when their columns are distinct and the rows of each level read
no column of a later level. -/
theorem filed_of_readOff {rows : Array (Row α)} :
    ∀ {lvls : List (Level α)}, (columnsOf lvls).Nodup →
      (∀ j (hj : j < lvls.length), ReadOff rows lvls[j].rows (columnsOf (lvls.drop (j + 1)))) →
      Filed rows lvls
  | [], _, _ => trivial
  | lv :: rest, hnd, h => by
    rw [columnsOf, List.map_cons, List.nodup_cons] at hnd
    exact ⟨hnd.1, h 0 (Nat.zero_lt_succ _),
      filed_of_readOff hnd.2 fun j hj => h (j + 1) (Nat.succ_lt_succ hj)⟩

/-! ### The pieces of a plan -/

/-- Distinct columns each get their own candidates. -/
theorem assignCandidates_eq (doms : Array (Option (List α))) :
    ∀ {vs taken : List Nat}, vs.Nodup → (∀ v ∈ vs, v ∉ taken) →
      assignCandidates doms vs taken = vs.map fun v => (v, (doms.getD v none).getD [])
  | [], _, _, _ => rfl
  | v :: vs, taken, hnd, ht => by
    have hv : taken.contains v = false := by simpa using ht v List.mem_cons_self
    have ht' : ∀ w ∈ vs, w ∉ v :: taken := by
      intro w hw
      rw [List.mem_cons, not_or]
      exact ⟨fun h => (List.nodup_cons.1 hnd).1 (h ▸ hw), ht w (List.mem_cons_of_mem _ hw)⟩
    simp only [assignCandidates, hv, assignCandidates_eq doms hnd.of_cons ht', List.map_cons]
    rfl

section Levels

variable {doms : Array (Option (List α))} {order : List Nat} {ls : List (Option Nat)}
  {lf : Bool}

/-- The candidates of a column, in the order of its level. -/
def oriented (doms : Array (Option (List α))) (lf : Bool) (v : Nat) : List α :=
  if lf then ((doms.getD v none).getD []).reverse else (doms.getD v none).getD []

/-- The levels of distinct columns: each column at its place, with its own candidates and the
rows of its place. -/
theorem levelsOf_eq (hnd : order.Nodup) :
    Plan.levelsOf doms order ls lf = (order.zip (List.range order.length)).map fun p =>
      ⟨p.1, oriented doms lf p.1, rowsWithLevel ls (some p.2)⟩ := by
  unfold Plan.levelsOf
  rw [assignCandidates_eq doms hnd (by simp)]
  dsimp only
  rw [List.length_map, List.zip_map_left, List.map_map]
  rfl

theorem columnsOf_levelsOf (hnd : order.Nodup) :
    columnsOf (Plan.levelsOf doms order ls lf) = order := by
  rw [columnsOf, levelsOf_eq hnd, List.map_map]
  exact List.map_fst_zip (by simp)

theorem getElem?_levelsOf (hnd : order.Nodup) (j : Nat) :
    (Plan.levelsOf doms order ls lf)[j]? =
      order[j]?.map fun v => ⟨v, oriented doms lf v, rowsWithLevel ls (some j)⟩ := by
  rw [levelsOf_eq hnd, List.getElem?_map]
  cases h : order[j]? with
  | none =>
    have hj : order.length ≤ j := List.getElem?_eq_none_iff.1 h
    rw [List.getElem?_eq_none (by simpa using hj)]
    rfl
  | some v =>
    have hz : (order.zip (List.range order.length))[j]? = some (v, j) :=
      List.getElem?_zip_eq_some.2 ⟨h, List.getElem?_range (List.getElem?_eq_some_iff.1 h).1⟩
    rw [hz]
    rfl

end Levels


/-- The branching order is a permutation of the columns, whatever the heuristics: the decisions
first, then the other columns. -/
theorem branchOrder_perm {m : FlatModel α} (hm : m.Searchable) (cfg : SearchConfig)
    (sizes : Array Nat) : (branchOrder m cfg sizes).Perm (List.range m.columns.size) := by
  -- the decisions are the columns they contain
  have hdec : m.decisions.Perm
      ((List.range m.columns.size).filter fun v => m.decisions.contains v) := by
    rw [List.perm_ext_iff_of_nodup hm.decisions_nodup (List.nodup_range.filter _)]
    intro v
    simp only [List.mem_filter, List.mem_range, List.contains_iff_mem]
    exact ⟨fun h => ⟨hm.decisions_lt v h, h⟩, fun h => h.2⟩
  have hsplit := (hdec.append_right _).trans
    (List.filter_append_perm (fun v => m.decisions.contains v) (List.range m.columns.size))
  unfold branchOrder
  split
  · exact ((List.mergeSort_perm _ _).append (List.mergeSort_perm _ _)).trans hsplit
  · exact hsplit

/-- Folding the terms of a row into its level: the largest place among the level so far and
the terms' columns. -/
theorem foldlM_levelStep {n : Nat} {place : Array Nat} :
    ∀ {ts : List (Nat × α)}, (∀ t ∈ ts, t.1 < n) → ∀ acc : Option Nat,
      ts.foldlM (levelStep n place) acc =
        .ok (acc.toList ++ ts.map fun t => place.getD t.1 0).max?
  | [], _, acc => by cases acc <;> rfl
  | t :: ts, hts, acc => by
    have ht : ¬n ≤ t.1 := Nat.not_le.2 (hts t List.mem_cons_self)
    have ih : ∀ acc : Option Nat, ts.foldlM (levelStep n place) acc =
        .ok (acc.toList ++ ts.map fun t => place.getD t.1 0).max? :=
      foldlM_levelStep fun t' h => hts t' (List.mem_cons_of_mem _ h)
    rw [List.foldlM_cons]
    simp only [levelStep, if_neg ht, pure_bind]
    cases acc with
    | none => exact ih _
    | some q =>
      rw [ih]
      simp only [Option.toList_some, List.map_cons, List.cons_append,
        List.max?_cons']
      rfl

/-- The level of a row whose columns are in the table and have places there: the last place of
its columns, `none` when it has no terms. -/
theorem rowLevel_eq {n : Nat} {place : Array Nat} {r : Row α} (hts : ∀ t ∈ r.terms, t.1 < n)
    (hplace : ∀ t ∈ r.terms, place.getD t.1 0 < n) :
    rowLevel n place r = .ok (r.terms.map fun t => place.getD t.1 0).max? := by
  unfold rowLevel
  rw [foldlM_levelStep hts none, Option.toList_none, List.nil_append]
  cases hmax : (r.terms.map fun t => place.getD t.1 0).max? with
  | none => rfl
  | some p =>
    obtain ⟨t, ht, rfl⟩ := List.mem_map.1 (List.max?_mem hmax)
    have hlt : ¬n ≤ place.getD t.1 0 := Nat.not_le.2 (hplace t ht)
    simp only [bind, Except.bind, if_neg hlt]
    rfl


/-- A column in the tail of a list of distinct columns has its index there. -/
theorem le_idxOf_of_mem_drop {l : List Nat} (hnd : l.Nodup) {k c : Nat} (hc : c ∈ l.drop k) :
    k ≤ l.idxOf c := by
  obtain ⟨j, hj, rfl⟩ := List.mem_drop_iff_getElem.1 hc
  rw [hnd.idxOf_getElem]
  exact Nat.le_add_right k j

/-- The level of a row under a table of places: the last place of its columns, `none` for a row
without terms. -/
def levelOfRow (place : Array Nat) (r : Row α) : Option Nat :=
  (r.terms.map fun t => place.getD t.1 0).max?

theorem levelOfRow_eq_none {place : Array Nat} {r : Row α} :
    levelOfRow place r = none ↔ r.terms = [] := by
  rw [levelOfRow, List.max?_eq_none_iff, List.map_eq_nil_iff]

/-- A row's columns have places at most its level. -/
theorem place_le_of_levelOfRow {place : Array Nat} {r : Row α} {k : Nat}
    (h : levelOfRow place r = some k) : ∀ t ∈ r.terms, place.getD t.1 0 ≤ k := by
  intro t ht
  exact (List.max?_le_iff h).1 (Nat.le_refl k) _ (List.mem_map_of_mem ht)

/-- A row's level is the place of one of its columns. -/
theorem levelOfRow_lt {place : Array Nat} {r : Row α} {k n : Nat} (h : levelOfRow place r = some k)
    (hlt : ∀ t ∈ r.terms, place.getD t.1 0 < n) : k < n := by
  obtain ⟨t, ht, rfl⟩ := List.mem_map.1 (List.max?_mem h)
  exact hlt t ht

/-- The levels of the rows of a model under the places of an order. -/
def rowLevels (m : FlatModel α) (order : List Nat) : List (Option Nat) :=
  m.rows.toList.map (levelOfRow (placeTable m.columns.size order))

theorem getElem?_rowLevels {m : FlatModel α} {order : List Nat} (i : Nat) :
    (rowLevels m order)[i]? = m.rows[i]?.map (levelOfRow (placeTable m.columns.size order)) := by
  rw [rowLevels, List.getElem?_map, Array.getElem?_toList]

section Rows

variable {m : FlatModel α} {order : List Nat} (hm : m.Searchable)
  (hperm : order.Perm (List.range m.columns.size))
include hm hperm

/-- The columns of a row have places in the table. -/
theorem placeTable_lt_of_row {r : Row α} (hr : r ∈ m.rows) :
    ∀ t ∈ r.terms, (placeTable m.columns.size order).getD t.1 0 < m.columns.size := by
  intro t ht
  have h := placeTable_getD_of_perm hperm (hm.terms_lt r hr t ht)
  rw [h.1]
  exact h.2

/-- Every row of the model gets its level. -/
theorem mapM_rowLevel :
    m.rows.toList.mapM (rowLevel m.columns.size (placeTable m.columns.size order)) =
      .ok (rowLevels m order) :=
  mapM_eq_ok fun r hr =>
    rowLevel_eq (hm.terms_lt r (Array.mem_toList_iff.1 hr))
      (placeTable_lt_of_row hm hperm (Array.mem_toList_iff.1 hr))

end Rows

/-! ### Plans fit for a descent -/

variable [Scalar α]

/-- A plan fit for a descent over a model: the levels assign each column once, with its
candidates in some order; the rows of a level read no column assigned below it; the rows checked
before the descent have no terms; and every row is checked somewhere. -/
structure Plan.Fits (p : Plan α) (m : FlatModel α) : Prop where
  nodup : (columnsOf p.levels).Nodup
  mem_columnsOf : ∀ c, c ∈ columnsOf p.levels ↔ c < m.columns.size
  candidates_perm : ∀ lv ∈ p.levels, ∃ c d, m.columns[lv.column]? = some c ∧
    candidates c = some d ∧ lv.candidates.Perm d
  filed : Filed m.rows p.levels
  constant : ∀ i ∈ p.constantRows, ∀ r, m.rows[i]? = some r → r.terms = []
  covers : ∀ i < m.rows.size, i ∈ p.constantRows ∨ ∃ lv ∈ p.levels, i ∈ lv.rows

section OfModel

variable {m : FlatModel α} {order : List Nat}

/-- A level's candidates are its column's, in order or reversed. -/
theorem oriented_perm {c : Column α} {d : List α} (hc : m.columns[v]? = some c)
    (hd : candidates c = some d) (lf : Bool) :
    (oriented (m.columns.map candidates) lf v).Perm d := by
  have hdom : (m.columns.map candidates).getD v none = some d := by
    rw [Array.getD_eq_getD_getElem?, Array.getElem?_map, hc, Option.map_some, Option.getD_some, hd]
  unfold oriented
  rw [hdom, Option.getD_some]
  split
  · exact List.reverse_perm d
  · exact List.Perm.refl d

variable (hm : m.Searchable) (hperm : order.Perm (List.range m.columns.size))
include hm hperm

/-- The levels built from a permutation of the columns fit the model. -/
theorem levelsOf_fits (hdoms : ∀ c ∈ m.columns, (candidates c).isSome) (lf : Bool) :
    Plan.Fits ⟨Plan.levelsOf (m.columns.map candidates) order (rowLevels m order) lf,
      rowsWithLevel (rowLevels m order) none⟩ m := by
  have hnd : order.Nodup := hperm.nodup_iff.2 List.nodup_range
  have hmem : ∀ c, c ∈ order ↔ c < m.columns.size := fun c => by
    rw [hperm.mem_iff, List.mem_range]
  have hlen : order.length = m.columns.size := by rw [hperm.length_eq, List.length_range]
  -- a column's place is its index in the order
  have hplace : ∀ c < m.columns.size, (placeTable m.columns.size order).getD c 0 = order.idxOf c :=
    fun c hc => (placeTable_getD_of_perm hperm hc).1
  -- the row of an index with a level
  have hrow : ∀ {i : Nat} {k : Option Nat}, (rowLevels m order)[i]? = some k →
      ∃ r, m.rows[i]? = some r ∧
      r ∈ m.rows ∧ levelOfRow (placeTable m.columns.size order) r = k := by
    intro i k h
    rw [getElem?_rowLevels] at h
    obtain ⟨r, hr, rfl⟩ := Option.map_eq_some_iff.1 h
    exact ⟨r, hr, Array.mem_of_getElem? hr, rfl⟩
  refine ⟨?nodup, ?mem, ?cands, ?filed, ?constant, ?covers⟩
  case nodup => rw [columnsOf_levelsOf hnd]; exact hnd
  case mem => intro c; rw [columnsOf_levelsOf hnd]; exact hmem c
  case cands =>
    intro lv hlv
    obtain ⟨j, hj⟩ := List.mem_iff_getElem?.1 hlv
    rw [getElem?_levelsOf hnd] at hj
    obtain ⟨v, hv, rfl⟩ := Option.map_eq_some_iff.1 hj
    have hvlt : v < m.columns.size := (hmem v).1 (List.mem_of_getElem? hv)
    obtain ⟨d, hd⟩ := Option.isSome_iff_exists.1 (hdoms _ (Array.getElem_mem hvlt))
    exact ⟨m.columns[v], d, Array.getElem?_eq_getElem hvlt, hd,
      oriented_perm (Array.getElem?_eq_getElem hvlt) hd lf⟩
  case filed =>
    refine filed_of_readOff (by rw [columnsOf_levelsOf hnd]; exact hnd) fun j hj => ?_
    have hj' : (Plan.levelsOf (m.columns.map candidates) order (rowLevels m order) lf)[j]? =
        some (Plan.levelsOf (m.columns.map candidates) order (rowLevels m order) lf)[j] :=
      List.getElem?_eq_getElem hj
    rw [getElem?_levelsOf hnd] at hj'
    obtain ⟨v, -, hlv⟩ := Option.map_eq_some_iff.1 hj'
    rw [← hlv, columnsOf, List.map_drop, ← columnsOf, columnsOf_levelsOf hnd]
    intro i hi r hr t ht hdrop
    -- the row's columns are placed at or before its level, the later columns after it
    obtain ⟨r', hr', hmemr, hlvl⟩ := hrow (mem_rowsWithLevel.1 hi)
    rw [hr] at hr'
    cases hr'
    have hle := place_le_of_levelOfRow hlvl t ht
    rw [hplace _ (hm.terms_lt r hmemr t ht)] at hle
    have hge := le_idxOf_of_mem_drop hnd hdrop
    omega
  case constant =>
    intro i hi r hr
    obtain ⟨r', hr', -, hlvl⟩ := hrow (mem_rowsWithLevel.1 hi)
    rw [hr] at hr'
    cases hr'
    exact levelOfRow_eq_none.1 hlvl
  case covers =>
    intro i hi
    have hls : (rowLevels m order)[i]? =
        some (levelOfRow (placeTable m.columns.size order) m.rows[i]) := by
      rw [getElem?_rowLevels, Array.getElem?_eq_getElem hi, Option.map_some]
    cases hk : levelOfRow (placeTable m.columns.size order) m.rows[i] with
    | none =>
      rw [hk] at hls
      exact .inl (mem_rowsWithLevel.2 hls)
    | some k =>
      rw [hk] at hls
      -- the row's level is the place of one of its columns, so a level of the plan
      have hklt : k < order.length :=
        hlen ▸ levelOfRow_lt hk (placeTable_lt_of_row hm hperm (Array.getElem_mem hi))
      obtain ⟨lv, hlv⟩ : ∃ lv, (Plan.levelsOf (m.columns.map candidates) order
          (rowLevels m order) lf)[k]? = some lv := by
        rw [getElem?_levelsOf hnd, List.getElem?_eq_getElem hklt]
        exact ⟨_, rfl⟩
      refine .inr ⟨lv, List.mem_of_getElem? hlv, ?_⟩
      rw [getElem?_levelsOf hnd, List.getElem?_eq_getElem hklt, Option.map_some,
        Option.some.injEq] at hlv
      rw [← hlv]
      exact mem_rowsWithLevel.2 hls

omit hperm in
/-- Planning a searchable model whose columns can all be enumerated succeeds, whatever the
heuristics, with a plan fit for the model. -/
theorem Plan.ofModel_fits (hdoms : ∀ c ∈ m.columns, (candidates c).isSome) (cfg : SearchConfig) :
    ∃ p, Plan.ofModel m cfg = .ok (some p) ∧ p.Fits m := by
  have hperm := branchOrder_perm hm cfg ((m.columns.map candidates).map fun d => (d.getD []).length)
  have hany : (m.columns.map candidates).any Option.isNone = false := by
    rw [Array.any_eq_false]
    intro i hi
    simpa [Option.ne_none_iff_isSome] using hdoms _ (Array.getElem_mem (by simpa using hi))
  have hfind : m.decisions.find? (m.columns.size ≤ ·) = none :=
    List.find?_eq_none.2 fun v hv => by simpa using hm.decisions_lt v hv
  refine ⟨_, ?_, levelsOf_fits hm hperm hdoms cfg.largestFirst⟩
  simp only [Plan.ofModel, hany, hfind, mapM_rowLevel hm hperm]
  rfl

omit hm hperm in
/-- A model with a column that cannot be enumerated has no plan. -/
theorem Plan.ofModel_of_none (h : ∃ c ∈ m.columns, candidates c = none) (cfg : SearchConfig) :
    Plan.ofModel m cfg = .ok none := by
  obtain ⟨c, hc, hnone⟩ := h
  obtain ⟨i, hi, rfl⟩ := Array.mem_iff_getElem.1 hc
  have hany : (m.columns.map candidates).any Option.isNone = true :=
    Array.any_eq_true.2 ⟨i, by simpa using hi, by simp [hnone]⟩
  simp only [Plan.ofModel, hany]
  rfl

end OfModel

end Search

end MipLowering
