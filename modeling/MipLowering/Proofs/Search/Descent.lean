import MipLowering.Search.Enumerate
import Mathlib.Data.List.Nodup

/-!
# What a descent collects

A descent for every assignment walks the product of the levels' candidates in order
(`Search.choices`) and cuts a branch where the rows filed at a level fail (`Search.reached`).
When each column is assigned at one level and the rows of a level read no column assigned below
it (`Search.Filed`), cutting early is sieving at the end: the descent reaches exactly the choices
that satisfy every level's rows, each once when no candidate list has repeats. The values a
branch leaves behind do not disturb the next branch, since they lie in columns assigned below.

A failure limit or a cutoff interrupts the descent; what it has collected by then is a prefix of
what it reaches, and all of it when it is not interrupted.

## Main definitions

* `MipLowering.Search.rowsHold`, `MipLowering.Search.choices`, `MipLowering.Search.reached`,
  `MipLowering.Search.Filed`, `MipLowering.Search.AgreeOff`.

## Main results

* `MipLowering.Search.descend_collects` — a descent for every assignment collects a prefix of
  what it reaches, and all of it when not interrupted (`descend_all_uninterrupted`).
* `MipLowering.Search.reached_eq_filter` — reaching is sieving the choices.
* `MipLowering.Search.mem_choices`, `MipLowering.Search.nodup_choices`.
-/

namespace MipLowering

namespace Search

variable {α : Type}

/-- The columns of the levels, in order. -/
def columnsOf (lvls : List (Level α)) : List Nat := lvls.map Level.column

/-- Two value arrays of one size that differ at most at the listed columns. -/
structure AgreeOff (cols : List Nat) (V V' : Array α) : Prop where
  size_eq : V.size = V'.size
  getElem?_eq : ∀ c, c ∉ cols → V[c]? = V'[c]?

namespace AgreeOff

variable {cols cols' : List Nat} {V V' V'' : Array α}

theorem refl (cols : List Nat) (V : Array α) : AgreeOff cols V V := ⟨rfl, fun _ _ => rfl⟩

theorem symm (h : AgreeOff cols V V') : AgreeOff cols V' V :=
  ⟨h.size_eq.symm, fun c hc => (h.getElem?_eq c hc).symm⟩

theorem trans (h : AgreeOff cols V V') (h' : AgreeOff cols V' V'') : AgreeOff cols V V'' :=
  ⟨h.size_eq.trans h'.size_eq, fun c hc => (h.getElem?_eq c hc).trans (h'.getElem?_eq c hc)⟩

theorem mono (h : AgreeOff cols V V') (hsub : ∀ c ∈ cols, c ∈ cols') : AgreeOff cols' V V' :=
  ⟨h.size_eq, fun c hc => h.getElem?_eq c fun hm => hc (hsub c hm)⟩

/-- Arrays that agree everywhere are equal. -/
theorem eq (h : AgreeOff [] V V') : V = V' :=
  Array.ext_getElem? fun c => h.getElem?_eq c List.not_mem_nil

/-- Setting a column changes the array at that column only. -/
theorem setIfInBounds (V : Array α) (c : Nat) (x : α) :
    AgreeOff [c] (V.setIfInBounds c x) V := by
  refine ⟨Array.size_setIfInBounds, fun d hd => ?_⟩
  have hne : c ≠ d := fun h => hd (by simp [h])
  exact Array.getElem?_setIfInBounds_ne hne

/-- Setting the same value in a column of both arrays makes them agree there. -/
theorem set_both (h : AgreeOff (c :: cols) V V') (x : α) :
    AgreeOff cols (V.setIfInBounds c x) (V'.setIfInBounds c x) := by
  refine ⟨by simp [h.size_eq], fun d hd => ?_⟩
  by_cases hcd : c = d
  · subst hcd
    simp only [Array.getElem?_setIfInBounds, if_true, h.size_eq]
  · rw [Array.getElem?_setIfInBounds_ne hcd, Array.getElem?_setIfInBounds_ne hcd]
    exact h.getElem?_eq d (by simp [Ne.symm hcd, hd])

end AgreeOff

/-- A run from `w` ends in `r` having collected a prefix of `L` after what `w` held, and all
of `L` when it was not interrupted. -/
def Collects (r : Walk α × Option Outcome) (w : Walk α) (L : List (Array α)) : Prop :=
  ∃ F, r.1.found.toList = w.found.toList ++ F ∧ F <+: L ∧ (r.2 = none → F = L)

theorem Collects.interrupted {w : Walk α} {o : Outcome} (L : List (Array α)) :
    Collects (w, some o) w L :=
  ⟨[], by simp, List.nil_prefix, fun h => by cases h⟩

/-- A run that collects `L₁` and is not interrupted, followed by one that collects `L₂`. -/
theorem Collects.append {w w₁ : Walk α} {r : Walk α × Option Outcome} {L₁ L₂ : List (Array α)}
    (h₁ : Collects (w₁, none) w L₁) (h₂ : Collects r w₁ L₂) : Collects r w (L₁ ++ L₂) := by
  obtain ⟨F₁, hF₁, -, hfull⟩ := h₁
  obtain ⟨F₂, hF₂, hpre, hall⟩ := h₂
  have hF : F₁ = L₁ := hfull rfl
  subst hF
  refine ⟨F₁ ++ F₂, by rw [hF₂, hF₁, List.append_assoc], ?_, fun h => by rw [hall h]⟩
  exact (List.prefix_append_right_inj F₁).2 hpre

/-- An interrupted run that collected a prefix of `L₁` collects a prefix of `L₁ ++ L₂`. -/
theorem Collects.append_interrupted {w w₁ : Walk α} {o : Outcome} {L₁ : List (Array α)}
    (h : Collects (w₁, some o) w L₁) (L₂ : List (Array α)) : Collects (w₁, some o) w (L₁ ++ L₂) := by
  obtain ⟨F, hF, hpre, -⟩ := h
  exact ⟨F, hF, hpre.trans (List.prefix_append _ _), fun h => by cases h⟩

/-! ### Choices -/

/-- Every choice of one candidate per level, in the order of the descent. -/
def choices : List (Level α) → Array α → List (Array α)
  | [], values => [values]
  | lv :: rest, values =>
    lv.candidates.flatMap fun x => choices rest (values.setIfInBounds lv.column x)

/-- A choice agrees with the start off the levels' columns. -/
theorem agreeOff_of_mem_choices {lvls : List (Level α)} {V v : Array α}
    (h : v ∈ choices lvls V) : AgreeOff (columnsOf lvls) v V := by
  induction lvls generalizing V with
  | nil =>
    rw [choices, List.mem_singleton] at h
    subst h
    exact .refl _ _
  | cons lv rest ih =>
    simp only [choices, List.mem_flatMap] at h
    obtain ⟨x, -, hx⟩ := h
    have h₁ : AgreeOff (columnsOf (lv :: rest)) v (V.setIfInBounds lv.column x) :=
      (ih hx).mono fun c hc => List.mem_cons_of_mem _ hc
    have h₂ : AgreeOff (columnsOf (lv :: rest)) (V.setIfInBounds lv.column x) V :=
      (AgreeOff.setIfInBounds V lv.column x).mono fun c hc => by simp_all [columnsOf]
    exact h₁.trans h₂

/-- A choice is an array that agrees with the start off the levels' columns and holds a
candidate of each level at its column. -/
theorem mem_choices {lvls : List (Level α)} {V v : Array α} (hnd : (columnsOf lvls).Nodup)
    (hlt : ∀ c ∈ columnsOf lvls, c < V.size) :
    v ∈ choices lvls V ↔ AgreeOff (columnsOf lvls) v V ∧
      ∀ lv ∈ lvls, ∃ x ∈ lv.candidates, v[lv.column]? = some x := by
  induction lvls generalizing V with
  | nil =>
    simp only [choices, List.mem_singleton, List.not_mem_nil, false_implies, implies_true,
      and_true]
    exact ⟨fun h => h ▸ .refl _ _, fun h => h.eq⟩
  | cons lv rest ih =>
    simp only [columnsOf, List.map_cons, List.nodup_cons] at hnd
    have hcol : lv.column < V.size := hlt _ List.mem_cons_self
    have hlt' : ∀ x, ∀ c ∈ columnsOf rest, c < (V.setIfInBounds lv.column x).size :=
      fun x c hc => by simpa using hlt c (List.mem_cons_of_mem _ hc)
    simp only [choices, List.mem_flatMap, List.forall_mem_cons]
    constructor
    · rintro ⟨x, hx, hv⟩
      obtain ⟨hagree, hlevels⟩ := (ih hnd.2 (hlt' x)).1 hv
      have hat : v[lv.column]? = some x := by
        rw [hagree.getElem?_eq _ hnd.1, Array.getElem?_setIfInBounds_self_of_lt hcol]
      have h₂ : AgreeOff (columnsOf (lv :: rest)) (V.setIfInBounds lv.column x) V :=
        (AgreeOff.setIfInBounds V lv.column x).mono fun c hc => by simp_all [columnsOf]
      exact ⟨(hagree.mono fun c hc => List.mem_cons_of_mem _ hc).trans h₂, ⟨x, hx, hat⟩,
        hlevels⟩
    · rintro ⟨hagree, ⟨x, hx, hat⟩, hlevels⟩
      refine ⟨x, hx, (ih hnd.2 (hlt' x)).2 ⟨⟨by simp [hagree.size_eq], fun c hc => ?_⟩, hlevels⟩⟩
      by_cases hc' : c = lv.column
      · subst hc'
        rw [hat, Array.getElem?_setIfInBounds_self_of_lt hcol]
      · rw [Array.getElem?_setIfInBounds_ne (Ne.symm hc')]
        refine hagree.getElem?_eq c ?_
        rw [columnsOf, List.map_cons, List.mem_cons, not_or]
        exact ⟨hc', hc⟩

/-- Distinct choices differ, when the columns are distinct and no candidate list repeats. -/
theorem nodup_choices {lvls : List (Level α)} {V : Array α} (hnd : (columnsOf lvls).Nodup)
    (hlt : ∀ c ∈ columnsOf lvls, c < V.size) (hc : ∀ lv ∈ lvls, lv.candidates.Nodup) :
    (choices lvls V).Nodup := by
  induction lvls generalizing V with
  | nil => simp [choices]
  | cons lv rest ih =>
    simp only [columnsOf, List.map_cons, List.nodup_cons] at hnd
    have hcol : lv.column < V.size := hlt _ List.mem_cons_self
    have hlt' : ∀ x, ∀ c ∈ columnsOf rest, c < (V.setIfInBounds lv.column x).size :=
      fun x c hc => by simpa using hlt c (List.mem_cons_of_mem _ hc)
    -- a choice below `x` holds `x` at the level's column
    have hat : ∀ x v, v ∈ choices rest (V.setIfInBounds lv.column x) → v[lv.column]? = some x :=
      fun x v hv => by
        rw [(agreeOff_of_mem_choices hv).getElem?_eq _ hnd.1,
          Array.getElem?_setIfInBounds_self_of_lt hcol]
    rw [choices, List.nodup_flatMap]
    refine ⟨fun x _ => ih hnd.2 (hlt' x) fun lv' h => hc lv' (List.mem_cons_of_mem _ h), ?_⟩
    refine (hc lv List.mem_cons_self).imp fun hne v hv hv' => hne ?_
    rw [← Option.some.injEq, ← hat _ v hv, hat _ v hv']

variable [Scalar α]

/-- The listed rows hold at `values`; an index with no row holds. -/
def rowsHold (rows : Array (Row α)) (is : List Nat) (values : Array α) : Bool :=
  is.all fun i => (rows[i]?.map fun r => r.isSatisfied values tolerance).getD true

theorem rowsHold_iff {rows : Array (Row α)} {is : List Nat} {values : Array α} :
    rowsHold rows is values = true ↔
      ∀ i ∈ is, ∀ r, rows[i]? = some r → r.isSatisfied values tolerance = true := by
  unfold rowsHold
  rw [List.all_eq_true]
  refine forall₂_congr fun i _ => ?_
  cases rows[i]? with
  | none => simp
  | some r => simp

/-- The complete assignments a descent reaches: its choices in order, with a branch cut where
the rows of a level fail. -/
def reached (rows : Array (Row α)) : List (Level α) → Array α → List (Array α)
  | [], values => [values]
  | lv :: rest, values =>
    lv.candidates.flatMap fun x =>
      if rowsHold rows lv.rows (values.setIfInBounds lv.column x) then
        reached rows rest (values.setIfInBounds lv.column x)
      else []

/-- The rows listed read no column of `cols`. -/
def ReadOff (rows : Array (Row α)) (is : List Nat) (cols : List Nat) : Prop :=
  ∀ i ∈ is, ∀ r, rows[i]? = some r → ∀ t ∈ r.terms, t.1 ∉ cols

/-- Levels fit for a descent: each column is assigned at one level, and the rows of a level read
no column assigned below it. -/
def Filed (rows : Array (Row α)) : List (Level α) → Prop
  | [] => True
  | lv :: rest => lv.column ∉ columnsOf rest ∧ ReadOff rows lv.rows (columnsOf rest) ∧
      Filed rows rest

/-! ### Rows read only their columns -/

theorem Row.isSatisfied_congr {r : Row α} {V V' : Array α}
    (h : ∀ t ∈ r.terms, V[t.1]? = V'[t.1]?) (tol : α) :
    r.isSatisfied V tol = r.isSatisfied V' tol := by
  have hterms : (r.terms.map fun t => t.2 * V.getD t.1 Scalar.zero) =
      r.terms.map fun t => t.2 * V'.getD t.1 Scalar.zero := by
    apply List.map_congr_left
    intro t ht
    simp only [Array.getD_eq_getD_getElem?, h t ht]
  unfold Row.isSatisfied Row.activity
  rw [hterms]

theorem rowsHold_congr {rows : Array (Row α)} {is cols : List Nat} (hr : ReadOff rows is cols)
    {V V' : Array α} (h : AgreeOff cols V V') : rowsHold rows is V = rowsHold rows is V' := by
  have hrow : ∀ i ∈ is, (rows[i]?.map fun r => r.isSatisfied V tolerance).getD true =
      (rows[i]?.map fun r => r.isSatisfied V' tolerance).getD true := by
    intro i hi
    cases hr' : rows[i]? with
    | none => rfl
    | some r =>
      simp only [Option.map_some, Option.getD_some]
      exact Row.isSatisfied_congr (fun t ht => h.getElem?_eq t.1 (hr i hi r hr' t ht)) _
  unfold rowsHold
  rw [Bool.eq_iff_iff, List.all_eq_true, List.all_eq_true]
  exact forall₂_congr fun i hi => by rw [hrow i hi]

/-! ### Reaching is sieving the choices -/

section Reach

variable {rows : Array (Row α)}

/-- What the descent reaches does not depend on values in the columns it assigns. -/
theorem reached_congr {lvls : List (Level α)} (hf : Filed rows lvls) {V V' : Array α}
    (h : AgreeOff (columnsOf lvls) V V') : reached rows lvls V = reached rows lvls V' := by
  induction lvls generalizing V V' with
  | nil => rw [h.eq]
  | cons lv rest ih =>
    obtain ⟨-, hread, hrest⟩ := hf
    simp only [reached]
    apply List.flatMap_congr
    intro x _
    have hx : AgreeOff (columnsOf rest) (V.setIfInBounds lv.column x)
        (V'.setIfInBounds lv.column x) := h.set_both x
    rw [rowsHold_congr hread hx, ih hrest hx]

/-- Cutting a branch where a level's rows fail is sieving the complete choices: on a branch
below a level, the level's rows read only columns already fixed. -/
theorem reached_eq_filter {lvls : List (Level α)} (hf : Filed rows lvls) (V : Array α) :
    reached rows lvls V =
      (choices lvls V).filter fun v => lvls.all fun lv => rowsHold rows lv.rows v := by
  induction lvls generalizing V with
  | nil => simp [reached, choices]
  | cons lv rest ih =>
    obtain ⟨-, hread, hrest⟩ := hf
    simp only [reached, choices, List.filter_flatMap, List.all_cons]
    apply List.flatMap_congr
    intro x _
    -- every choice below `x` agrees with the branch on the columns the level's rows read
    have hsame : ∀ v ∈ choices rest (V.setIfInBounds lv.column x),
        rowsHold rows lv.rows v = rowsHold rows lv.rows (V.setIfInBounds lv.column x) :=
      fun v hv => rowsHold_congr hread (agreeOff_of_mem_choices hv)
    rw [List.filter_congr fun v hv => by rw [hsame v hv], ih hrest]
    cases rowsHold rows lv.rows (V.setIfInBounds lv.column x) <;> simp

end Reach

/-! ### The descent -/

section Descent

variable {rows : Array (Row α)} {budget : Budget}

/-- Checking rows reads them at the current values and changes only the count of checks. -/
theorem checkRows_eq (rows : Array (Row α)) (w : Walk α) (is : List Nat) :
    ∃ c, checkRows rows w is = (rowsHold rows is w.values, { w with stats.checks := c }) := by
  induction is generalizing w with
  | nil => exact ⟨w.stats.checks, rfl⟩
  | cons i is ih =>
    obtain ⟨c, hc⟩ := ih { w with stats.checks := w.stats.checks + 1 }
    simp only [checkRows, rowsHold, List.all_cons]
    cases hi : (rows[i]?.map fun r => r.isSatisfied w.values tolerance).getD true with
    | true => exact ⟨c, by simpa [rowsHold] using hc⟩
    | false => exact ⟨w.stats.checks + 1, by simp⟩

theorem foldl_tryValue_interrupted (lv : Level α) (next : Walk α → Walk α × Option Outcome)
    (cs : List α) (w : Walk α) (o : Outcome) :
    cs.foldl (tryValue rows budget lv next) (w, some o) = (w, some o) := by
  induction cs with
  | nil => rfl
  | cons x cs ih => exact ih

/-- The candidates of one level, tried from a walk that agrees with `V` off the columns of this
level and those below: each passing candidate adds what `next` collects, which is what the
descent reaches from `V` with the candidate set. -/
theorem foldl_tryValue_collects {lv : Level α} {rest : List (Level α)}
    (hf : Filed rows (lv :: rest)) {next : Walk α → Walk α × Option Outcome}
    (hnext : ∀ w, Collects (next w) w (reached rows rest w.values) ∧
      AgreeOff (columnsOf rest) (next w).1.values w.values)
    (V : Array α) (cs : List α) (w : Walk α) (hw : AgreeOff (columnsOf (lv :: rest)) w.values V) :
    Collects (cs.foldl (tryValue rows budget lv next) (w, none)) w
      (cs.flatMap fun x =>
        if rowsHold rows lv.rows (V.setIfInBounds lv.column x) then
          reached rows rest (V.setIfInBounds lv.column x)
        else []) ∧
    AgreeOff (columnsOf (lv :: rest)) (cs.foldl (tryValue rows budget lv next) (w, none)).1.values
      V := by
  obtain ⟨-, hread, hrest⟩ := hf
  induction cs generalizing w with
  | nil => exact ⟨⟨[], by simp, List.nil_prefix, fun _ => rfl⟩, hw⟩
  | cons x cs ih =>
    rw [List.foldl_cons, List.flatMap_cons]
    cases hex : budget.exhausted w with
    | some o =>
      have hstop : tryValue rows budget lv next (w, none) x = (w, some o) := by
        simp [tryValue, hex]
      rw [hstop, foldl_tryValue_interrupted]
      exact ⟨(Collects.interrupted _).append_interrupted _, hw⟩
    | none =>
      let w₁ : Walk α := { w with values := w.values.setIfInBounds lv.column x,
                                  stats.nodes := w.stats.nodes + 1 }
      obtain ⟨c, hc⟩ := checkRows_eq rows w₁ lv.rows
      let w₂ : Walk α := { w₁ with stats.checks := c }
      -- the branch agrees with `V` set at `x` off the columns below
      have hx : AgreeOff (columnsOf rest) w₂.values (V.setIfInBounds lv.column x) :=
        hw.set_both x
      have hw₂ : AgreeOff (columnsOf (lv :: rest)) w₂.values V :=
        ((AgreeOff.setIfInBounds w.values lv.column x).mono fun c hc => by
          simp_all [columnsOf]).trans hw
      have hstep : tryValue rows budget lv next (w, none) x =
          if rowsHold rows lv.rows w₂.values then next w₂
          else ({ w₂ with stats.failures := w₂.stats.failures + 1,
                          runFailures := w₂.runFailures + 1 }, none) := by
        simp only [tryValue, hex]
        rw [hc]
      rw [hstep, rowsHold_congr hread hx]
      cases hholds : rowsHold rows lv.rows (V.setIfInBounds lv.column x) with
      | false =>
        simp only [Bool.false_eq_true, if_false, List.nil_append]
        exact ih _ hw₂
      | true =>
        simp only [if_true]
        obtain ⟨hcol, hframe⟩ := hnext w₂
        rw [reached_congr hrest hx] at hcol
        have hw₃ : AgreeOff (columnsOf (lv :: rest)) (next w₂).1.values V :=
          (hframe.mono fun c hc => List.mem_cons_of_mem _ hc).trans hw₂
        cases hr : next w₂ with
        | mk w₃ o =>
          rw [hr] at hcol hw₃
          cases o with
          | some o =>
            rw [foldl_tryValue_interrupted]
            exact ⟨hcol.append_interrupted _, hw₃⟩
          | none =>
            obtain ⟨hcs, hcs'⟩ := ih w₃ hw₃
            exact ⟨hcol.append hcs, hcs'⟩

/-- A descent for every assignment collects a prefix of what it reaches, and all of it when not
interrupted; it changes the values only in the columns it assigns. -/
theorem descend_collects {lvls : List (Level α)} (hf : Filed rows lvls) (w : Walk α) :
    Collects (descend rows .all budget lvls w) w (reached rows lvls w.values) ∧
    AgreeOff (columnsOf lvls) (descend rows .all budget lvls w).1.values w.values := by
  induction lvls generalizing w with
  | nil =>
    refine ⟨⟨[w.values], ?_, List.prefix_refl _, fun _ => rfl⟩, .refl _ _⟩
    simp [descend, record]
  | cons lv rest ih =>
    obtain ⟨hcol, hframe⟩ := foldl_tryValue_collects hf (fun w' => ih hf.2.2 w') w.values
      lv.candidates w (.refl _ _)
    simp only [descend, reached]
    cases hr : lv.candidates.foldl (tryValue rows budget lv (descend rows .all budget rest))
        (w, none) with
    | mk w' o =>
      rw [hr] at hcol hframe
      cases o with
      | some o => exact ⟨hcol, hframe⟩
      | none =>
        obtain ⟨F, hF, hpre, hall⟩ := hcol
        exact ⟨⟨F, hF, hpre, fun _ => hall rfl⟩, hframe⟩

theorem foldl_tryValue_uninterrupted (hb : ∀ w : Walk α, budget.exhausted w = none)
    (lv : Level α) {next : Walk α → Walk α × Option Outcome} (hnext : ∀ w, (next w).2 = none)
    (cs : List α) (w : Walk α) : (cs.foldl (tryValue rows budget lv next) (w, none)).2 = none := by
  induction cs generalizing w with
  | nil => rfl
  | cons x cs ih =>
    have hstep : (tryValue rows budget lv next (w, none) x).2 = none := by
      let w₁ : Walk α := { w with values := w.values.setIfInBounds lv.column x,
                                  stats.nodes := w.stats.nodes + 1 }
      obtain ⟨c, hc⟩ := checkRows_eq rows w₁ lv.rows
      simp only [tryValue, hb w]
      rw [hc]
      split
      · exact hnext _
      · rfl
    have hpair : tryValue rows budget lv next (w, none) x =
        ((tryValue rows budget lv next (w, none) x).1, none) := Prod.ext rfl hstep
    rw [List.foldl_cons, hpair]
    exact ih _

/-- Without failure limit and cutoff, nothing interrupts a descent for every assignment. -/
theorem descend_all_uninterrupted (hb : ∀ w : Walk α, budget.exhausted w = none)
    (lvls : List (Level α)) (w : Walk α) : (descend rows .all budget lvls w).2 = none := by
  induction lvls generalizing w with
  | nil => rfl
  | cons lv rest ih =>
    have hfold : (lv.candidates.foldl (tryValue rows budget lv (descend rows .all budget rest))
        (w, none)).2 = none := foldl_tryValue_uninterrupted hb lv ih lv.candidates w
    simp only [descend]
    cases hr : lv.candidates.foldl (tryValue rows budget lv (descend rows .all budget rest))
        (w, none) with
    | mk w' o =>
      rw [hr] at hfold
      cases hfold
      rfl

end Descent

end Search

end MipLowering
