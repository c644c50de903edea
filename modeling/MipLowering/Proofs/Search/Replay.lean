import MipLowering.Proofs.Search.Plan

/-!
# A descent replays its events

A descent meets, in a fixed order, a budget check before each candidate, the candidates whose
rows fail, and the complete assignments it reaches: the *events* of its levels
(`Search.events`). What a run decides (the best assignment, the assignments collected, the
failures counted and why it ended) is what replaying these events one after another gives
(`Search.play`), whatever values the walk carries in from an earlier run, as long as the rows of
each level read no column assigned at a later level (`Search.ReadsAbove`). Every plan of a model
has this property, whether its decisions repeat or not, and the rows it checks before the descent
have no terms.

## Main definitions

* `MipLowering.Search.Event`, `MipLowering.Search.events`, `MipLowering.Search.play`.
* `MipLowering.Search.Walk.Tallies` — two walks that agree on what decides a run.
* `MipLowering.Search.ReadsAbove`.

## Main results

* `MipLowering.Search.play_append` — replaying two lists is replaying one after the other.
* `MipLowering.Search.descend_replays` — a descent is the replay of its events.
* `MipLowering.Search.Plan.readsAbove_of_ofModel`, `MipLowering.Search.Plan.constant_of_ofModel`
  — what every plan of a model satisfies.
-/

namespace MipLowering

namespace Search

variable {α : Type}

/-- What a descent meets: the budget check before a candidate, a candidate whose rows fail, and
a complete assignment. -/
inductive Event (α : Type)
  | check
  | fail
  | leaf (values : Array α)

/-- Two walks that agree on what decides a run: the best assignment, the assignments collected,
and the failures counted in all and in the current run. -/
structure Walk.Tallies (w w' : Walk α) : Prop where
  best : w.best = w'.best
  found : w.found = w'.found
  failures : w.stats.failures = w'.stats.failures
  runFailures : w.runFailures = w'.runFailures

namespace Walk.Tallies

variable {w w' w'' : Walk α}

theorem refl (w : Walk α) : w.Tallies w := ⟨rfl, rfl, rfl, rfl⟩

theorem symm (h : w.Tallies w') : w'.Tallies w :=
  ⟨h.best.symm, h.found.symm, h.failures.symm, h.runFailures.symm⟩

theorem trans (h : w.Tallies w') (h' : w'.Tallies w'') : w.Tallies w'' :=
  ⟨h.best.trans h'.best, h.found.trans h'.found, h.failures.trans h'.failures,
    h.runFailures.trans h'.runFailures⟩

/-- The budget reads only the failures. -/
theorem exhausted (h : w.Tallies w') (budget : Budget) : budget.exhausted w = budget.exhausted w' := by
  simp only [Budget.exhausted, h.failures, h.runFailures]

/-- A failure counted in both. -/
theorem fail (h : w.Tallies w') :
    Walk.Tallies { w with stats.failures := w.stats.failures + 1, runFailures := w.runFailures + 1 }
      { w' with stats.failures := w'.stats.failures + 1, runFailures := w'.runFailures + 1 } :=
  ⟨h.best, h.found, by simp [h.failures], by simp [h.runFailures]⟩

end Walk.Tallies

section Record

variable [Scalar α]

theorem record_values (goal : Goal) (w : Walk α) : (record goal w).1.values = w.values := by
  cases goal with
  | optimise sense col => simp only [record]; split_ifs <;> rfl
  | _ => rfl

/-- Recording the same values in walks that agree keeps them agreeing, and both stop or neither. -/
theorem Walk.Tallies.record_both {w w' : Walk α} (h : w.Tallies w') (hv : w.values = w'.values)
    (goal : Goal) :
    (record goal w).1.Tallies (record goal w').1 ∧ (record goal w).2 = (record goal w').2 := by
  cases goal with
  | all => exact ⟨⟨h.best, by simp [record, h.found, hv], h.failures, h.runFailures⟩, rfl⟩
  | first => exact ⟨⟨by simp [record, hv], h.found, h.failures, h.runFailures⟩, rfl⟩
  | optimise sense col =>
    refine ⟨?_, rfl⟩
    simp only [record, hv, h.best]
    split_ifs
    · exact ⟨rfl, h.found, h.failures, h.runFailures⟩
    · exact h

end Record

/-! ### Events and their replay -/

variable [Scalar α]

/-- The rows of each level read no column assigned at a later level. -/
def ReadsAbove (rows : Array (Row α)) : List (Level α) → Prop
  | [] => True
  | lv :: rest => ReadOff rows lv.rows (columnsOf rest) ∧ ReadsAbove rows rest

/-- The events of a descent through the levels from the values `V`, when nothing interrupts it:
before each candidate a check, then the failure of the level's rows or the events below. -/
def events (rows : Array (Row α)) : List (Level α) → Array α → List (Event α)
  | [], V => [.leaf V]
  | lv :: rest, V =>
    lv.candidates.flatMap fun x =>
      .check :: if rowsHold rows lv.rows (V.setIfInBounds lv.column x) then
        events rows rest (V.setIfInBounds lv.column x)
      else [.fail]

/-- Replays events from a walk as a run with `budget` meets them: a check stops the run once the
budget is exhausted, a failure is counted, and a complete assignment is recorded, which stops a
search for a first solution. -/
def play (goal : Goal) (budget : Budget) : List (Event α) → Walk α → Walk α × Option Outcome
  | [], w => (w, none)
  | .check :: es, w =>
    match budget.exhausted w with
    | some o => (w, some o)
    | none => play goal budget es w
  | .fail :: es, w =>
    play goal budget es
      { w with stats.failures := w.stats.failures + 1, runFailures := w.runFailures + 1 }
  | .leaf v :: es, w =>
    match record goal { w with values := v } with
    | (w', some o) => (w', some o)
    | (w', none) => play goal budget es w'

section Play

variable {goal : Goal} {budget : Budget}

@[simp] theorem play_nil (w : Walk α) : play goal budget [] w = (w, none) := rfl

theorem play_check (es : List (Event α)) (w : Walk α) :
    play goal budget (.check :: es) w =
      match budget.exhausted w with
      | some o => (w, some o)
      | none => play goal budget es w := rfl

theorem play_check_of_none {es : List (Event α)} {w : Walk α} (h : budget.exhausted w = none) :
    play goal budget (.check :: es) w = play goal budget es w := by
  rw [play_check, h]

theorem play_fail (es : List (Event α)) (w : Walk α) :
    play goal budget (.fail :: es) w = play goal budget es
      { w with stats.failures := w.stats.failures + 1, runFailures := w.runFailures + 1 } := rfl

theorem play_leaf (v : Array α) (es : List (Event α)) (w : Walk α) :
    play goal budget (.leaf v :: es) w =
      match record goal { w with values := v } with
      | (w', some o) => (w', some o)
      | (w', none) => play goal budget es w' := rfl

/-- Replaying two lists is replaying the first and, unless it stopped, the second. -/
theorem play_append (E₁ E₂ : List (Event α)) (w : Walk α) :
    play goal budget (E₁ ++ E₂) w =
      match play goal budget E₁ w with
      | (w', some o) => (w', some o)
      | (w', none) => play goal budget E₂ w' := by
  induction E₁ generalizing w with
  | nil => rfl
  | cons e E₁ ih =>
    cases e with
    | check =>
      rw [List.cons_append, play_check, play_check]
      cases budget.exhausted w with
      | some o => rfl
      | none => exact ih w
    | fail => exact ih _
    | leaf v =>
      rw [List.cons_append, play_leaf, play_leaf]
      cases record goal { w with values := v } with
      | mk w' o =>
        cases o with
        | some o => rfl
        | none => exact ih w'

/-- A replay that stopped stays stopped after more events. -/
theorem play_append_of_some {E₁ : List (Event α)} {w w' : Walk α} {o : Outcome}
    (h : play goal budget E₁ w = (w', some o)) (E₂ : List (Event α)) :
    play goal budget (E₁ ++ E₂) w = (w', some o) := by
  rw [play_append, h]

theorem play_append_of_none {E₁ : List (Event α)} {w w' : Walk α}
    (h : play goal budget E₁ w = (w', none)) (E₂ : List (Event α)) :
    play goal budget (E₁ ++ E₂) w = play goal budget E₂ w' := by
  rw [play_append, h]

/-- Replays from walks that agree agree. -/
theorem Walk.Tallies.play {w w' : Walk α} (h : w.Tallies w') (E : List (Event α)) :
    (play goal budget E w).1.Tallies (play goal budget E w').1 ∧
      (play goal budget E w).2 = (play goal budget E w').2 := by
  induction E generalizing w w' with
  | nil => exact ⟨h, rfl⟩
  | cons e E ih =>
    cases e with
    | check =>
      rw [play_check, play_check, h.exhausted budget]
      cases budget.exhausted w' with
      | some o => exact ⟨h, rfl⟩
      | none => exact ih h
    | fail => exact ih h.fail
    | leaf v =>
      have hv : ({ w with values := v } : Walk α).Tallies { w' with values := v } :=
        ⟨h.best, h.found, h.failures, h.runFailures⟩
      obtain ⟨ht, ho⟩ := hv.record_both rfl goal
      rw [play_leaf, play_leaf]
      revert ht ho
      cases record goal { w with values := v } with
      | mk r o =>
        cases record goal { w' with values := v } with
        | mk r' o' =>
          intro ht ho
          cases ho
          cases o with
          | some o => exact ⟨ht, rfl⟩
          | none => exact ih ht

end Play

/-! ### The descent is the replay of its events -/

section Descent

variable {rows : Array (Row α)}

/-- A run from `w` that ended in `r`, against the replay of `E` from `w'`: the two agree, and the
run changed values only in the columns `cols`. -/
def Replays (goal : Goal) (budget : Budget) (r : Walk α × Option Outcome) (w : Walk α)
    (cols : List Nat) (E : List (Event α)) (w' : Walk α) : Prop :=
  r.1.Tallies (play goal budget E w').1 ∧ r.2 = (play goal budget E w').2 ∧
    AgreeOff cols r.1.values w.values

/-- The candidates of one level, tried from a walk that agrees with `V` off the columns of this
level and those below: the trials replay the events of the candidates from `V`, when `next`
replays the events of the levels below. -/
theorem foldl_tryValue_replays (goal : Goal) (budget : Budget) {lv : Level α} {rest : List (Level α)}
    (hread : ReadOff rows lv.rows (columnsOf rest)) {next : Walk α → Walk α × Option Outcome}
    (hnext : ∀ {w w' : Walk α}, w.Tallies w' → ∀ {V : Array α},
      AgreeOff (columnsOf rest) w.values V →
      Replays goal budget (next w) w (columnsOf rest) (events rows rest V) w')
    (V : Array α) {f : α → List (Event α)}
    (hf : ∀ x, f x = .check :: if rowsHold rows lv.rows (V.setIfInBounds lv.column x) then
      events rows rest (V.setIfInBounds lv.column x) else [.fail]) :
    ∀ (cs : List α) {w w' : Walk α}, w.Tallies w' →
      AgreeOff (columnsOf (lv :: rest)) w.values V →
      (cs.foldl (tryValue rows budget lv next) (w, none)).1.Tallies
        (play goal budget (cs.flatMap f) w').1 ∧
      (cs.foldl (tryValue rows budget lv next) (w, none)).2 = (play goal budget (cs.flatMap f) w').2 ∧
      AgreeOff (columnsOf (lv :: rest)) (cs.foldl (tryValue rows budget lv next) (w, none)).1.values V
  | [], w, w', ht, hw => ⟨ht, rfl, hw⟩
  | x :: cs, w, w', ht, hw => by
    rw [List.foldl_cons, List.flatMap_cons, hf x]
    cases hex : budget.exhausted w with
    | some o =>
      have hstop : tryValue rows budget lv next (w, none) x = (w, some o) := by
        simp [tryValue, hex]
      have hplay : play goal budget (.check :: if rowsHold rows lv.rows (V.setIfInBounds lv.column x)
          then events rows rest (V.setIfInBounds lv.column x) else [.fail]) w' = (w', some o) := by
        rw [play_check, ← ht.exhausted budget, hex]
      rw [hstop, foldl_tryValue_interrupted, play_append_of_some hplay]
      exact ⟨ht, rfl, hw⟩
    | none =>
      let w₁ : Walk α := { w with values := w.values.setIfInBounds lv.column x,
                                  stats.nodes := w.stats.nodes + 1 }
      obtain ⟨c, hc⟩ := checkRows_eq rows w₁ lv.rows
      let w₂ : Walk α := { w₁ with stats.checks := c }
      -- the trial agrees with `V` set at `x` off the columns below
      have hx : AgreeOff (columnsOf rest) w₂.values (V.setIfInBounds lv.column x) := hw.set_both x
      have hw₂ : AgreeOff (columnsOf (lv :: rest)) w₂.values V :=
        ((AgreeOff.setIfInBounds w.values lv.column x).mono fun c hc => by
          simp_all [columnsOf]).trans hw
      have ht₂ : w₂.Tallies w' := ⟨ht.best, ht.found, ht.failures, ht.runFailures⟩
      have hstep : tryValue rows budget lv next (w, none) x =
          if rowsHold rows lv.rows w₂.values then next w₂
          else ({ w₂ with stats.failures := w₂.stats.failures + 1,
                          runFailures := w₂.runFailures + 1 }, none) := by
        simp only [tryValue, hex]
        rw [hc]
      have hex' : budget.exhausted w' = none := by rw [← ht.exhausted budget, hex]
      rw [hstep, rowsHold_congr hread hx, play_append, play_check_of_none hex']
      cases hholds : rowsHold rows lv.rows (V.setIfInBounds lv.column x) with
      | false =>
        simp only [Bool.false_eq_true, if_false, play_fail, play_nil]
        exact foldl_tryValue_replays goal budget hread hnext V hf cs ht₂.fail (by exact hw₂)
      | true =>
        simp only [if_true]
        obtain ⟨h₁, h₂, h₃⟩ := hnext ht₂ hx
        have hw₃ : AgreeOff (columnsOf (lv :: rest)) (next w₂).1.values V :=
          (h₃.mono fun c hc => List.mem_cons_of_mem _ hc).trans hw₂
        revert h₁ h₂ hw₃
        cases next w₂ with
        | mk w₃ o =>
          cases play goal budget (events rows rest (V.setIfInBounds lv.column x)) w' with
          | mk w₃' o' =>
            intro h₁ h₂ hw₃
            cases h₂
            cases o with
            | some o =>
              rw [foldl_tryValue_interrupted]
              exact ⟨h₁, rfl, hw₃⟩
            | none => exact foldl_tryValue_replays goal budget hread hnext V hf cs h₁ hw₃

/-- A descent is the replay of the events of its levels from any values that agree with the
walk's off the levels' columns, from any walk that agrees with it on what decides a run. -/
theorem descend_replays (goal : Goal) (budget : Budget) :
    ∀ {lvls : List (Level α)}, ReadsAbove rows lvls → ∀ {w w' : Walk α}, w.Tallies w' →
      ∀ {V : Array α}, AgreeOff (columnsOf lvls) w.values V →
      Replays goal budget (descend rows goal budget lvls w) w
        (columnsOf lvls) (events rows lvls V) w'
  | [], _, w, w', ht, V, hV => by
    have hv : w.values = V := hV.eq
    have ht' : w.Tallies { w' with values := V } := ⟨ht.best, ht.found, ht.failures, ht.runFailures⟩
    obtain ⟨hrec, ho⟩ := ht'.record_both hv goal
    have hd : descend rows goal budget [] w = record goal w := rfl
    rw [hd]
    refine ⟨?_, ?_, by rw [record_values]; exact .refl _ _⟩ <;> simp only [events, play_leaf]
    · revert hrec
      cases record goal { w' with values := V } with
      | mk r o => cases o <;> exact id
    · rw [ho]
      cases record goal { w' with values := V } with
      | mk r o => cases o <;> rfl
  | lv :: rest, hr, w, w', ht, V, hV => by
    obtain ⟨h₁, h₂, h₃⟩ := foldl_tryValue_replays goal budget hr.1
      (fun {_ _} ht {_} hV => descend_replays goal budget hr.2 ht hV) V (fun _ => rfl)
      lv.candidates ht hV
    have h₃' : AgreeOff (columnsOf (lv :: rest))
        (lv.candidates.foldl (tryValue rows budget lv (descend rows goal budget rest)) (w, none)).1.values
        w.values := h₃.trans hV.symm
    simp only [descend, events]
    revert h₁ h₂ h₃'
    cases lv.candidates.foldl (tryValue rows budget lv (descend rows goal budget rest)) (w, none) with
    | mk w₁ o =>
      intro h₁ h₂ h₃'
      cases o with
      | some o => exact ⟨h₁, h₂, h₃'⟩
      | none => exact ⟨⟨h₁.best, h₁.found, h₁.failures, h₁.runFailures⟩, h₂, h₃'⟩

end Descent

/-! ### What every plan satisfies -/

section Plans

/-- A map through `Except` that succeeds maps each entry through a step that succeeds. -/
theorem getElem?_of_mapM_ok {β γ ε : Type} {f : β → Except ε γ} :
    ∀ {l : List β} {ls : List γ}, l.mapM f = .ok ls →
      ∀ {i : Nat} {y : γ}, ls[i]? = some y → ∃ x, l[i]? = some x ∧ f x = .ok y
  | [], ls, h, i, y, hy => by
    cases h
    simp at hy
  | x :: l, ls, h, i, y, hy => by
    rw [List.mapM_cons] at h
    cases hx : f x with
    | error e =>
      rw [hx] at h
      cases h
    | ok y₀ =>
      cases hl : l.mapM f with
      | error e =>
        rw [hx, hl] at h
        cases h
      | ok ys =>
        rw [hx, hl] at h
        cases h
        cases i with
        | zero =>
          cases hy
          exact ⟨x, rfl, hx⟩
        | succ i => exact getElem?_of_mapM_ok hl hy

/-- Writing the indices `s, s + 1, …` along a list of columns leaves a column that is not in the
list as it was. -/
theorem getElem?_foldl_setPlace_of_not_mem {c : Nat} :
    ∀ {l : List Nat}, c ∉ l → ∀ (s : Nat) (a : Array Nat),
      ((l.zip (List.range' s l.length)).foldl (fun a p => a.setIfInBounds p.1 p.2) a)[c]? = a[c]?
  | [], _, _, _ => rfl
  | x :: l, hc, s, a => by
    rw [List.mem_cons, not_or] at hc
    rw [List.length_cons, List.range'_succ, List.zip_cons_cons, List.foldl_cons,
      getElem?_foldl_setPlace_of_not_mem hc.2, Array.getElem?_setIfInBounds_ne (Ne.symm hc.1)]

/-- Writing the indices `s, s + 1, …` along a list of columns, the last write winning: a column
at index `j` of the list ends with an entry of at least `s + j`. -/
theorem le_foldl_setPlace {c : Nat} :
    ∀ {l : List Nat} {j : Nat}, l[j]? = some c → ∀ (s : Nat) {a : Array Nat}, c < a.size →
      ∃ k, ((l.zip (List.range' s l.length)).foldl (fun a p => a.setIfInBounds p.1 p.2) a)[c]? =
        some k ∧ s + j ≤ k
  | [], _, hj, _, _, _ => by simp at hj
  | x :: l, j, hj, s, a, hc => by
    have hc' : c < (a.setIfInBounds x s).size := by simpa using hc
    rw [List.length_cons, List.range'_succ, List.zip_cons_cons, List.foldl_cons]
    cases j with
    | zero =>
      rw [List.getElem?_cons_zero, Option.some.injEq] at hj
      subst hj
      by_cases hl : x ∈ l
      · -- a later write of the column is at a larger index
        obtain ⟨j', hj'⟩ := List.mem_iff_getElem?.1 hl
        obtain ⟨k, hk, hle⟩ := le_foldl_setPlace hj' (s + 1) hc'
        exact ⟨k, hk, by omega⟩
      · rw [getElem?_foldl_setPlace_of_not_mem hl, Array.getElem?_setIfInBounds_self_of_lt hc]
        exact ⟨s, rfl, by omega⟩
    | succ j =>
      rw [List.getElem?_cons_succ] at hj
      obtain ⟨k, hk, hle⟩ := le_foldl_setPlace hj (s + 1) hc'
      exact ⟨k, hk, by omega⟩

/-- A column at index `j` of the order has a place of at least `j`: its last index. -/
theorem le_placeTable {n : Nat} {order : List Nat} {j c : Nat} (hj : order[j]? = some c)
    (hc : c < n) : j ≤ (placeTable n order).getD c 0 := by
  obtain ⟨k, hk, hle⟩ := le_foldl_setPlace hj 0 (a := Array.replicate n 0) (by simpa using hc)
  unfold placeTable
  rw [List.range_eq_range', Array.getD_eq_getD_getElem?, hk, Option.getD_some]
  omega

omit [Scalar α] in
/-- A fold of level steps that succeeds met only columns of the table. -/
theorem lt_of_foldlM_levelStep {n : Nat} {place : Array Nat} :
    ∀ {ts : List (Nat × α)} {acc res : Option Nat}, ts.foldlM (levelStep n place) acc = .ok res →
      ∀ t ∈ ts, t.1 < n
  | [], _, _, _ => fun _ ht => absurd ht List.not_mem_nil
  | t :: ts, acc, res, h => by
    rw [List.foldlM_cons] at h
    by_cases hn : n ≤ t.1
    · simp [levelStep, hn] at h
      cases h
    · simp only [levelStep, if_neg hn, pure_bind] at h
      intro t' ht'
      rcases List.mem_cons.1 ht' with rfl | ht'
      · exact Nat.lt_of_not_le hn
      · exact lt_of_foldlM_levelStep h t' ht'

omit [Scalar α] in
/-- The level a row gets is the last place of its columns. -/
theorem levelOfRow_of_rowLevel {n : Nat} {place : Array Nat} {r : Row α} {l : Option Nat}
    (h : rowLevel n place r = .ok l) : levelOfRow place r = l := by
  unfold rowLevel at h
  cases hfold : r.terms.foldlM (levelStep n place) none with
  | error e =>
    rw [hfold] at h
    cases h
  | ok res =>
    have hres : res = levelOfRow place r := by
      rw [foldlM_levelStep (lt_of_foldlM_levelStep hfold) none, Option.toList_none,
        List.nil_append] at hfold
      exact (Except.ok.inj hfold).symm
    rw [hfold] at h
    simp only [bind, Except.bind] at h
    subst hres
    cases hlv : levelOfRow place r with
    | none =>
      rw [hlv] at h
      injection h
    | some p =>
      rw [hlv] at h
      dsimp only at h
      by_cases hp : n ≤ p
      · rw [if_pos hp] at h
        cases h
      · rw [if_neg hp] at h
        injection h

omit [Scalar α] in
/-- Handing out candidates keeps the columns of the order, repeated or not. -/
theorem map_fst_assignCandidates (doms : Array (Option (List α))) :
    ∀ (vs taken : List Nat), (assignCandidates doms vs taken).map Prod.fst = vs
  | [], _ => rfl
  | v :: vs, taken => by
    rw [assignCandidates, List.map_cons, map_fst_assignCandidates doms vs]

omit [Scalar α] in
/-- The columns of the levels are the order, repeated or not. -/
theorem columnsOf_levelsOf_any (doms : Array (Option (List α))) (order : List Nat)
    (ls : List (Option Nat)) (lf : Bool) : columnsOf (Plan.levelsOf doms order ls lf) = order := by
  unfold Plan.levelsOf columnsOf
  dsimp only
  rw [List.map_map]
  change List.map (Prod.fst ∘ Prod.fst) _ = order
  rw [← List.map_map, List.map_fst_zip (by simp), map_fst_assignCandidates]

omit [Scalar α] in
/-- The rows of level `j` are those whose level is `j`. -/
theorem rows_getElem_levelsOf (doms : Array (Option (List α))) (order : List Nat)
    (ls : List (Option Nat)) (lf : Bool) {j : Nat}
    (hj : j < (Plan.levelsOf doms order ls lf).length) :
    (Plan.levelsOf doms order ls lf)[j].rows = rowsWithLevel ls (some j) := by
  have heq : Plan.levelsOf doms order ls lf =
      ((assignCandidates doms order []).zip (List.range (assignCandidates doms order []).length)).map
        fun p => ⟨p.1.1, if lf then p.1.2.reverse else p.1.2, rowsWithLevel ls (some p.2)⟩ := rfl
  rw [List.getElem_of_eq heq hj, List.getElem_map, List.getElem_zip, List.getElem_range]

omit [Scalar α] in
/-- Levels read their rows above when the rows of each level read no column of a later level. -/
theorem readsAbove_of_readOff {rows : Array (Row α)} :
    ∀ {lvls : List (Level α)},
      (∀ j (hj : j < lvls.length), ReadOff rows lvls[j].rows (columnsOf (lvls.drop (j + 1)))) →
      ReadsAbove rows lvls
  | [], _ => trivial
  | _ :: _, h => ⟨h 0 (Nat.zero_lt_succ _),
      readsAbove_of_readOff fun j hj => h (j + 1) (Nat.succ_lt_succ hj)⟩

omit [Scalar α] in
/-- The branching order holds columns of the model only, once the decisions do. -/
theorem lt_of_mem_branchOrder {m : FlatModel α} (hdec : ∀ v ∈ m.decisions, v < m.columns.size)
    (cfg : SearchConfig) (sizes : Array Nat) :
    ∀ c ∈ branchOrder m cfg sizes, c < m.columns.size := by
  intro c hc
  unfold branchOrder at hc
  -- the order is the decisions and the other columns, sorted or not
  have hmem : c ∈ m.decisions ∨ c ∈ List.range m.columns.size := by
    split at hc <;>
    · simp only [List.mem_append, List.mem_mergeSort, List.mem_filter] at hc
      tauto
  rcases hmem with h | h
  · exact hdec c h
  · exact List.mem_range.1 h

/-- A plan of a model: the levels and the rows without level, from a branching order of the model's
columns and the level of every row under its places. -/
theorem Plan.ofModel_eq_some {m : FlatModel α} {cfg : SearchConfig} {p : Plan α}
    (h : Plan.ofModel m cfg = .ok (some p)) :
    ∃ order ls, (∀ c ∈ order, c < m.columns.size) ∧
      m.rows.toList.mapM (rowLevel m.columns.size (placeTable m.columns.size order)) = .ok ls ∧
      p = ⟨Plan.levelsOf (m.columns.map candidates) order ls cfg.largestFirst,
        rowsWithLevel ls none⟩ := by
  unfold Plan.ofModel at h
  simp only [bind, Except.bind, pure, Except.pure] at h
  split at h
  · cases h
  split at h
  · next v hv =>
    cases h
  next hfind =>
  have hdec : ∀ v ∈ m.decisions, v < m.columns.size := by
    have hnone : m.decisions.find? (fun x => decide (m.columns.size ≤ x)) = none :=
      Option.eq_none_iff_forall_ne_some.2 hfind
    intro v hv
    simpa using List.find?_eq_none.1 hnone v hv
  split at h
  · cases h
  next ls hls =>
  cases h
  exact ⟨_, ls, lt_of_mem_branchOrder hdec cfg _, hls, rfl⟩

/-- The rows of every level of a plan read no column of a later level: a row sits at the last
place of its columns, and a column of a later level has its last place after it. -/
theorem Plan.readsAbove_of_ofModel {m : FlatModel α} {cfg : SearchConfig} {p : Plan α}
    (h : Plan.ofModel m cfg = .ok (some p)) : ReadsAbove m.rows p.levels := by
  obtain ⟨order, ls, hlt, hls, rfl⟩ := Plan.ofModel_eq_some h
  refine readsAbove_of_readOff fun j hj => ?_
  rw [rows_getElem_levelsOf, columnsOf, List.map_drop, ← columnsOf, columnsOf_levelsOf_any]
  intro i hi r hr t ht hlater
  -- the row's level is `j`, so its columns have places at most `j`
  obtain ⟨r', hr', hlevel⟩ := getElem?_of_mapM_ok hls (mem_rowsWithLevel.1 hi)
  rw [Array.getElem?_toList, hr, Option.some.injEq] at hr'
  subst hr'
  have hle := place_le_of_levelOfRow (levelOfRow_of_rowLevel hlevel) t ht
  -- a column of a later level has its last place there or after
  obtain ⟨k, hk⟩ := List.mem_iff_getElem?.1 hlater
  rw [List.getElem?_drop] at hk
  have hge := le_placeTable hk (hlt _ (List.mem_of_getElem? hk))
  omega

/-- The rows a plan checks before the descent have no terms. -/
theorem Plan.constant_of_ofModel {m : FlatModel α} {cfg : SearchConfig} {p : Plan α}
    (h : Plan.ofModel m cfg = .ok (some p)) :
    ∀ i ∈ p.constantRows, ∀ r, m.rows[i]? = some r → r.terms = [] := by
  obtain ⟨order, ls, -, hls, rfl⟩ := Plan.ofModel_eq_some h
  intro i hi r hr
  obtain ⟨r', hr', hlevel⟩ := getElem?_of_mapM_ok hls (mem_rowsWithLevel.1 hi)
  rw [Array.getElem?_toList, hr, Option.some.injEq] at hr'
  subst hr'
  exact levelOfRow_eq_none.1 (levelOfRow_of_rowLevel hlevel)

end Plans

end Search

end MipLowering
