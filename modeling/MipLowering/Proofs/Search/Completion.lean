import Mathlib
import MipLowering.Proofs.Search.Restarts
import MipLowering.Proofs.Search.Luby
import MipLowering.Proofs.Search.ExactSolutions
/-!
# When restarting runs complete

Without a failure limit, the runs of a restarting search replay the same events, each under its
own cutoff, and a run restarts at the first check where the failures it met reach its cutoff. So
what a run needs is one number of the search, its *demand*: the failures met before the last
check that a run without cutoff reaches (`Search.demand`). A run whose cutoff exceeds the demand
completes and every other run restarts (`Search.Plan.run_cutoff_outcome`), so the runs end with a
complete one exactly when some run they count is given a cutoff above the demand
(`Search.Plan.runUntilDone_complete_iff`). Nothing else ends them: under a policy whose cutoffs
stay at or below the demand, as a geometric policy of factor `1` does once the demand reaches its
base, every run restarts until the run counter is spent.

Within the `2^32` runs of a 32-bit counter, the Luby policy of base `b` gives cutoffs of at most
`b · 2^31`, and gives that one to run `2^32 - 2` (`RestartPolicy.exists_luby_cutoff_gt_iff`). So
the Luby policy does not always complete either: a search that fails at each of `2^32` complete
assignments needs `2^32 - 1` failures, above every Luby cutoff of base `1`
(`FlatModel.stallModel_luby_never_completes`). Demands like that one are counted level by level
(`Search.Stretch`): a level whose candidates each lead to `k` failures, `d` of them before the
last check, needs the failures of all but its last candidate and then `d`.

## Main definitions

* `MipLowering.Search.lastCheck`, `MipLowering.Search.demand`, `MipLowering.Search.Plan.demand`,
  `MipLowering.FlatModel.demand`.
* `MipLowering.Search.Stretch` — events that reach a check, with their failures before it and in
  all.

## Main results

* `MipLowering.Search.play_restart_iff` — a replay with a cutoff restarts exactly when the
  failures before some check it reaches meet the cutoff.
* `MipLowering.Search.Plan.runUntilDone_complete_iff` — runs complete exactly when one of them has
  a cutoff above the demand.
* `MipLowering.FlatModel.runsComplete_iff_cutoff_exceeds_demand`.
-/

namespace MipLowering

namespace RestartPolicy

/-- Every cutoff is at least `1`. -/
theorem one_le_cutoff (p : RestartPolicy) (run : Nat) : 1 ≤ p.cutoff run := by
  simp only [cutoff]
  exact Nat.le_max_right _ _

/-- The greatest Luby cutoff within the runs a 32-bit counter allows. -/
def lubyPeak (base : Nat) : Nat := max (min (base * 2 ^ 31) Scalar.wordMax) 1

theorem luby_cutoff_le (base : Nat) {run : Nat} (hrun : run < Search.maxRuns) :
    (luby base).cutoff run ≤ lubyPeak base := by
  have hmax : Search.maxRuns = 2 ^ 32 := rfl
  have hterm : MipLowering.luby run ≤ 2 ^ 31 := by
    have := two_mul_luby_le run
    omega
  rw [cutoff_luby, lubyPeak]
  have := Nat.mul_le_mul_left base hterm
  omega

theorem luby_cutoff_peak (base : Nat) : (luby base).cutoff (Search.maxRuns - 2) = lubyPeak base := by
  have hterm : MipLowering.luby (Search.maxRuns - 2) = 2 ^ 31 := luby_two_pow_sub_two 31
  rw [cutoff_luby, hterm, lubyPeak]

/-- Some Luby cutoff within the runs counted exceeds `d` exactly when the peak does. -/
theorem exists_luby_cutoff_gt_iff (base d : Nat) :
    (∃ r < Search.maxRuns, d < (luby base).cutoff r) ↔ d < lubyPeak base := by
  constructor
  · rintro ⟨r, hr, hd⟩
    exact Nat.lt_of_lt_of_le hd (luby_cutoff_le base hr)
  · intro hd
    exact ⟨Search.maxRuns - 2, by decide, by rw [luby_cutoff_peak]; exact hd⟩

end RestartPolicy

namespace Search

/-! ### The demand of a replay -/

section Demand

variable {α : Type}

/-- The failures that a replay without cutoff meets before the last check it reaches, or `none`
when it reaches no check. A search for a first solution stops at the first assignment it meets;
the others go on. -/
def lastCheck (goal : Goal) : List (Event α) → Option Nat
  | [] => none
  | .check :: es => some ((lastCheck goal es).getD 0)
  | .fail :: es => (lastCheck goal es).map (· + 1)
  | .leaf _ :: es =>
    match goal with
    | .first => none
    | _ => lastCheck goal es

/-- The failures a run must be allowed before it can end on its own. -/
def demand (goal : Goal) (E : List (Event α)) : Nat := (lastCheck goal E).getD 0

/-- Whether an event is a failure. -/
def Event.isFail : Event α → Bool
  | .fail => true
  | _ => false

/-- Whether an event is a complete assignment. -/
def Event.isLeaf : Event α → Bool
  | .leaf _ => true
  | _ => false

/-- Events without a complete assignment in front of a stretch that reaches a check add their
failures before its last check. -/
theorem lastCheck_append {goal : Goal} {E₂ : List (Event α)} {n : Nat}
    (h₂ : lastCheck goal E₂ = some n) (E₁ : List (Event α)) (h₁ : ∀ e ∈ E₁, e.isLeaf = false) :
    lastCheck goal (E₁ ++ E₂) = some (E₁.countP Event.isFail + n) := by
  induction E₁ with
  | nil => simpa using h₂
  | cons e E₁ ih =>
    have ih := ih fun e he => h₁ e (List.mem_cons_of_mem _ he)
    cases e with
    | check => simp [lastCheck, ih, Event.isFail]
    | fail =>
      simp [lastCheck, ih, List.countP_cons, Event.isFail]
      omega
    | leaf v => exact absurd (h₁ _ List.mem_cons_self) (by simp [Event.isLeaf])

/-- A stretch of events that reaches a check and holds no complete assignment, with `d` failures
before its last check and `k` in all. -/
structure Stretch (goal : Goal) (E : List (Event α)) (d k : Nat) : Prop where
  noLeaf : ∀ e ∈ E, e.isLeaf = false
  lastCheck_eq : lastCheck goal E = some d
  countP_eq : E.countP Event.isFail = k

namespace Stretch

variable {goal : Goal} {E E₁ E₂ : List (Event α)} {d k d₁ k₁ d₂ k₂ : Nat}

/-- A check and the failure after it. -/
theorem check_fail : Stretch goal ([.check, .fail] : List (Event α)) 0 1 :=
  ⟨by simp [Event.isLeaf], rfl, rfl⟩

/-- A check in front of a stretch leaves its last check where it was. -/
theorem cons_check (h : Stretch goal E d k) : Stretch goal (.check :: E) d k where
  noLeaf := by simpa [Event.isLeaf] using h.noLeaf
  lastCheck_eq := by simp [lastCheck, h.lastCheck_eq]
  countP_eq := by simpa [Event.isFail] using h.countP_eq

/-- Two stretches one after the other: the failures of the first come before the last check. -/
theorem append (h₁ : Stretch goal E₁ d₁ k₁) (h₂ : Stretch goal E₂ d₂ k₂) :
    Stretch goal (E₁ ++ E₂) (k₁ + d₂) (k₁ + k₂) where
  noLeaf e he := (List.mem_append.1 he).elim (h₁.noLeaf e) (h₂.noLeaf e)
  lastCheck_eq := by rw [lastCheck_append h₂.lastCheck_eq E₁ h₁.noLeaf, h₁.countP_eq]
  countP_eq := by rw [List.countP_append, h₁.countP_eq, h₂.countP_eq]

/-- Stretches alike, one for each element of a list, one after another: the failures of all but
the last come before the last check. -/
theorem flatMap {β : Type} {f : β → List (Event α)} {L : List β} :
    ∀ {x : β}, (∀ y ∈ x :: L, Stretch goal (f y) d k) →
      Stretch goal ((x :: L).flatMap f) (L.length * k + d) ((L.length + 1) * k) := by
  induction L with
  | nil =>
    intro x h
    simpa using h x List.mem_cons_self
  | cons y L ih =>
    intro x h
    have hrest := ih fun z hz => h z (List.mem_cons_of_mem _ hz)
    have hd : (L.length + 1) * k + d = k + (L.length * k + d) := by ring
    have hk : (L.length + 1 + 1) * k = k + (L.length + 1) * k := by ring
    rw [List.flatMap_cons, List.length_cons, hd, hk]
    exact (h x List.mem_cons_self).append hrest

theorem demand_eq (h : Stretch goal E d k) : demand goal E = d := by
  rw [demand, h.lastCheck_eq, Option.getD_some]

end Stretch

end Demand

variable {α : Type} [Scalar α] {goal : Goal}

theorem record_runFailures (goal : Goal) (w : Walk α) :
    (record goal w).1.runFailures = w.runFailures := by
  cases goal with
  | optimise sense col =>
    simp only [record]
    split_ifs <;> rfl
  | _ => rfl

/-- A replay with a cutoff and no failure limit restarts exactly when, at some check it reaches,
the failures of the run meet the cutoff. -/
theorem play_restart_iff (goal : Goal) (c : Nat) (E : List (Event α)) (w : Walk α) :
    (play goal ⟨0, some c⟩ E w).2 = some .restart ↔
      ∃ n, lastCheck goal E = some n ∧ c ≤ w.runFailures + n := by
  induction E generalizing w with
  | nil => simp [lastCheck]
  | cons e E ih =>
    cases e with
    | check =>
      rw [play_check]
      by_cases hc : c ≤ w.runFailures
      · have hx : (⟨0, some c⟩ : Budget).exhausted w = some .restart := by
          simp [Budget.exhausted, hc]
        rw [hx]
        exact iff_of_true rfl ⟨_, rfl, by omega⟩
      · have hx : (⟨0, some c⟩ : Budget).exhausted w = none := by
          simp [Budget.exhausted, hc]
        rw [hx, ih]
        cases h : lastCheck goal E with
        | none => simp [lastCheck, h]; omega
        | some n => simp [lastCheck, h]
    | fail =>
      rw [play_fail, ih]
      cases h : lastCheck goal E with
      | none => simp [lastCheck, h]
      | some n => simp [lastCheck, h]; omega
    | leaf v =>
      rw [play_leaf]
      cases goal with
      | first => simp [record_first, lastCheck]
      | all => exact ih _
      | optimise sense col =>
        rw [record_optimise]
        simp only [lastCheck]
        rw [ih, record_runFailures]

/-- A replay with a cutoff and no failure limit is never stopped. -/
theorem play_cutoff_ne_stopped (c : Option Nat) (E : List (Event α)) (w : Walk α) :
    (play goal ⟨0, c⟩ E w).2 ≠ some .stopped := by
  rcases play_cutoff c E w with heq | ⟨E₁, E₂, w₁, -, -, hcut⟩
  · rw [heq]
    rcases play_unbounded_snd E w with h | h <;> rw [h] <;> simp
  · rw [hcut]
    simp

/-- The events of a level, candidate by candidate: a check, then the levels below when the rows
of the level hold, and a failure otherwise. -/
theorem events_cons (rows : Array (Row α)) (lv : Level α) (rest : List (Level α)) (V : Array α) :
    events rows (lv :: rest) V = lv.candidates.flatMap fun x =>
      .check :: if rowsHold rows lv.rows (V.setIfInBounds lv.column x) then
        events rows rest (V.setIfInBounds lv.column x) else [.fail] := rfl

namespace Stretch

variable {rows : Array (Row α)} {lv : Level α} {rest : List (Level α)} {V : Array α} {x : α}
  {xs : List α} {d k : Nat}

/-- A level whose rows fail at every candidate: a check and a failure for each. -/
theorem events_of_fail (hc : lv.candidates = x :: xs)
    (hfail : ∀ y ∈ lv.candidates, rowsHold rows lv.rows (V.setIfInBounds lv.column y) = false) :
    Stretch goal (events rows (lv :: rest) V) xs.length (xs.length + 1) := by
  have h : Stretch goal (events rows (lv :: rest) V) (xs.length * 1 + 0) ((xs.length + 1) * 1) := by
    rw [events_cons, hc]
    refine Stretch.flatMap fun y hy => ?_
    simp only [hfail y (by rw [hc]; exact hy), Bool.false_eq_true, if_false]
    exact check_fail
  simpa using h

/-- A level whose rows hold at every candidate, each leading to a stretch alike below: their
stretches one after another. -/
theorem events_of_pass (hc : lv.candidates = x :: xs)
    (hpass : ∀ y ∈ lv.candidates, rowsHold rows lv.rows (V.setIfInBounds lv.column y) = true ∧
      Stretch goal (events rows rest (V.setIfInBounds lv.column y)) d k) :
    Stretch goal (events rows (lv :: rest) V) (xs.length * k + d) ((xs.length + 1) * k) := by
  rw [events_cons, hc]
  refine Stretch.flatMap fun y hy => ?_
  obtain ⟨hrows, hbelow⟩ := hpass y (by rw [hc]; exact hy)
  simp only [hrows, if_true]
  exact hbelow.cons_check

end Stretch

theorem getD_completed {o : Option Outcome} (hs : o ≠ some .stopped) (hr : o ≠ some .restart) :
    o.getD .completed = .completed := by
  cases o with
  | none => rfl
  | some o => cases o <;> simp_all

/-! ### Runs under their cutoffs -/

section Runs

variable {rows : Array (Row α)} {p : Plan α}

/-- The failures the runs of a plan need from the values `V`: the demand of its events, or none
when its rows without terms fail, and every run completes at once. -/
def Plan.demand (p : Plan α) (rows : Array (Row α)) (goal : Goal) (V : Array α) : Nat :=
  if rowsHold rows p.constantRows V then Search.demand goal (events rows p.levels V) else 0

/-- A run with no failure limit restarts when its cutoff is at most the demand, and completes
otherwise. -/
theorem Plan.run_cutoff_outcome (hread : ReadsAbove rows p.levels)
    (hconst : ∀ i ∈ p.constantRows, ∀ r, rows[i]? = some r → r.terms = []) (goal : Goal)
    {c : Nat} (hc : 1 ≤ c) {V : Array α} {w : Walk α} (hV : AgreeOff (columnsOf p.levels) w.values V) :
    (p.run rows goal ⟨0, some c⟩ w).2 =
      if c ≤ p.demand rows goal V then .restart else .completed := by
  have hrows : rowsHold rows p.constantRows w.values = rowsHold rows p.constantRows V :=
    rowsHold_congr (readOff_of_terms_nil hconst _) hV
  cases hok : rowsHold rows p.constantRows V with
  | false =>
    -- the rows without terms fail: the run completes at once, whatever its cutoff
    have hd : p.demand rows goal V = 0 := by simp only [Plan.demand, hok]; rfl
    rw [hd, if_neg (by omega)]
    exact (Plan.run_of_rowsHold_false goal _ w (hrows.trans hok)).2
  | true =>
    rw [(Plan.run_replays hread goal ⟨0, some c⟩ w hV (hrows.trans hok)).2.1]
    have hiff := play_restart_iff goal c (events rows p.levels V) { w with runFailures := 0 }
    have hd : p.demand rows goal V = (lastCheck goal (events rows p.levels V)).getD 0 := by
      simp only [Plan.demand, hok, if_true, Search.demand]
    rw [hd]
    cases hlast : lastCheck goal (events rows p.levels V) with
    | none =>
      -- no check is reached, so nothing can restart the run
      have hne : (play goal ⟨0, some c⟩ (events rows p.levels V) { w with runFailures := 0 }).2 ≠
          some .restart := fun h => by simpa [hlast] using hiff.1 h
      rw [Option.getD_none, if_neg (by omega)]
      exact getD_completed (play_cutoff_ne_stopped _ _ _) hne
    | some n =>
      rw [Option.getD_some]
      by_cases hle : c ≤ n
      · rw [if_pos hle, hiff.2 ⟨n, hlast, by simpa using hle⟩]
        rfl
      · have hne : (play goal ⟨0, some c⟩ (events rows p.levels V) { w with runFailures := 0 }).2 ≠
            some .restart := fun h => by
          obtain ⟨m, hm, hcm⟩ := hiff.1 h
          rw [hlast, Option.some.injEq] at hm
          subst hm
          simp at hcm
          omega
        rw [if_neg hle]
        exact getD_completed (play_cutoff_ne_stopped _ _ _) hne

/-- A restarted run leaves the values off the plan's columns as they were. -/
theorem Plan.run_values_of_restart (hread : ReadsAbove rows p.levels) {budget : Budget}
    {V : Array α} {w : Walk α} (hV : AgreeOff (columnsOf p.levels) w.values V)
    (h : (p.run rows goal budget w).2 = .restart) :
    AgreeOff (columnsOf p.levels) (p.run rows goal budget w).1.values V := by
  cases hok : rowsHold rows p.constantRows w.values with
  | false =>
    rw [(Plan.run_of_rowsHold_false goal budget w hok).2] at h
    cases h
  | true => exact (Plan.run_replays hread goal budget w hV hok).2.2

/-- With no failure limit, the runs from run `run` end with a complete one within `fuel` runs
exactly when one of them is given a cutoff above the demand: every run before it restarts. -/
theorem Plan.runUntilDone_complete_iff (hread : ReadsAbove rows p.levels)
    (hconst : ∀ i ∈ p.constantRows, ∀ r, rows[i]? = some r → r.terms = [])
    {cfg : SearchConfig} (hlimit : cfg.failureLimit = 0) {policy : RestartPolicy}
    (hpol : cfg.restart = some policy) {V : Array α} :
    ∀ (fuel run : Nat) (w : Walk α), AgreeOff (columnsOf p.levels) w.values V →
      ((p.runUntilDone rows goal cfg fuel run w).2 = true ↔
        ∃ k < fuel, p.demand rows goal V < policy.cutoff (run + k))
  | 0, _, _, _ => by simp [Plan.runUntilDone]
  | fuel + 1, run, w, hV => by
    have hb : runBudget cfg run = ⟨0, some (policy.cutoff run)⟩ := by
      rw [runBudget, hlimit, hpol]
      rfl
    have hout := Plan.run_cutoff_outcome hread hconst goal (policy.one_le_cutoff run) hV
    by_cases hle : policy.cutoff run ≤ p.demand rows goal V
    · -- this run restarts, and the later runs decide
      rw [if_pos hle] at hout
      have hV' := Plan.run_values_of_restart hread hV hout
      rw [Plan.runUntilDone_of_restart (hb ▸ hout), hb,
        Plan.runUntilDone_complete_iff hread hconst hlimit hpol fuel (run + 1) _ hV']
      constructor
      · rintro ⟨k, hk, hd⟩
        have hrun : run + (k + 1) = run + 1 + k := by omega
        exact ⟨k + 1, by omega, hrun ▸ hd⟩
      · rintro ⟨k, hk, hd⟩
        cases k with
        | zero => exact absurd hd (Nat.not_lt.2 hle)
        | succ k =>
          have hrun : run + (k + 1) = run + 1 + k := by omega
          exact ⟨k, by omega, hrun ▸ hd⟩
    · rw [if_neg hle] at hout
      rw [Plan.runUntilDone_of_completed (hb ▸ hout)]
      exact iff_of_true rfl ⟨0, by omega, by rw [Nat.add_zero]; omega⟩

end Runs

end Search

namespace FlatModel

open Search

variable {α : Type} [Scalar α]

/-- The failures a run of the search of a model must be allowed before it can complete, when
planning gives a plan; `0` otherwise. -/
def demand (m : FlatModel α) (cfg : SearchConfig) : Nat :=
  match Plan.ofModel m cfg with
  | .ok (some p) => p.demand m.rows m.searchGoal m.startWalk.values
  | _ => 0

/-- Without a failure limit, the runs of a search end with a complete one exactly when one of
the runs counted is given a cutoff above its demand. -/
theorem runsComplete_iff_exists_cutoff (m : FlatModel α) (cfg : SearchConfig)
    (hlimit : cfg.failureLimit = 0) (policy : RestartPolicy) (hpol : cfg.restart = some policy) :
    m.runsComplete cfg = true ↔ ∃ r < maxRuns, m.demand cfg < policy.cutoff r := by
  -- without a plan the search ends at once and needs nothing
  have hnone : m.demand cfg = 0 → m.runsComplete cfg = true →
      (m.runsComplete cfg = true ↔ ∃ r < maxRuns, m.demand cfg < policy.cutoff r) :=
    fun hd hc => iff_of_true hc ⟨0, by decide, by rw [hd]; exact policy.one_le_cutoff 0⟩
  cases hp : Plan.ofModel m cfg with
  | error e => exact hnone (by simp only [demand, hp]) (by simp only [runsComplete, hp])
  | ok res =>
    cases res with
    | none => exact hnone (by simp only [demand, hp]) (by simp only [runsComplete, hp])
    | some p =>
      simp only [runsComplete, demand, hp]
      rw [Plan.runUntilDone_complete_iff (Plan.readsAbove_of_ofModel hp)
        (Plan.constant_of_ofModel hp) hlimit hpol maxRuns 0 m.startWalk (AgreeOff.refl _ _)]
      simp only [Nat.zero_add]

/-- Without a failure limit, the runs of a restarting search end with a complete one exactly when
one of the `2^32` runs a 32-bit counter allows is given a cutoff above the demand of the search:
under the Luby policy, exactly when the demand is below its peak cutoff. Every other run
restarts, and no other way out of the runs exists. -/
theorem runsComplete_iff_cutoff_exceeds_demand (m : FlatModel α) (cfg : SearchConfig)
    (hlimit : cfg.failureLimit = 0) (policy : RestartPolicy) (hpol : cfg.restart = some policy) :
    (m.runsComplete cfg = true ↔ ∃ r < maxRuns, m.demand cfg < policy.cutoff r) ∧
      ∀ base, policy = .luby base →
        (m.runsComplete cfg = true ↔ m.demand cfg < RestartPolicy.lubyPeak base) := by
  have hgen := runsComplete_iff_exists_cutoff m cfg hlimit policy hpol
  refine ⟨hgen, fun base hbase => ?_⟩
  rw [hgen, hbase]
  exact RestartPolicy.exists_luby_cutoff_gt_iff base _

/-- The model `restartModel` under the Luby policy of base `2`. -/
theorem restartModel_luby_completion :
    ({ restart := some (.luby 2) } : SearchConfig).failureLimit = 0 ∧
      ({ restart := some (.luby 2) } : SearchConfig).restart = some (.luby 2) ∧
      (restartModel.runsComplete { restart := some (.luby 2) } = true ↔
        ∃ r < maxRuns, restartModel.demand { restart := some (.luby 2) } <
          (RestartPolicy.luby 2).cutoff r) ∧
      ∀ base, RestartPolicy.luby 2 = .luby base →
        (restartModel.runsComplete { restart := some (.luby 2) } = true ↔
          restartModel.demand { restart := some (.luby 2) } < RestartPolicy.lubyPeak base) :=
  ⟨rfl, rfl, runsComplete_iff_cutoff_exceeds_demand restartModel _ rfl _ rfl⟩

/-- The search of `restartModel` fails three times before its last check: the Luby cutoffs
`2, 2, 4` restart twice. -/
example : restartModel.demand {} = 3 := by decide +kernel

/-- Two integer columns `x, y ∈ [0, 2^16 - 1]` and the row `y ≥ 2^16`, which no value of `y`
meets: the search fails at each of its `2^32` complete assignments. -/
def stallModel : FlatModel ERat where
  columns := #[⟨"x", .integer, .fin 0, .fin 65535, none⟩, ⟨"y", .integer, .fin 0, .fin 65535, none⟩]
  rows := #[⟨[(1, .fin 1)], .fin 65536, .posInf⟩]

/-- The plan of `stallModel`: `x` then `y`, each over the `2^16` integers of its bounds, and the
row checked once `y` has a value. -/
theorem stallModel_plan : ∃ cs : List ERat, cs.length = 65536 ∧
    (∀ y ∈ cs, ∃ z : Int, y = .fin z ∧ z ≤ 65535) ∧
    Plan.ofModel stallModel { restart := some (.luby 1) } =
      .ok (some ⟨[⟨0, cs, []⟩, ⟨1, cs, [0]⟩], []⟩) := by
  obtain ⟨cs, hcs⟩ : ∃ cs : List ERat,
      cs = (List.range ((65535 : Int) + 1 - 0).toNat).map fun k => Scalar.ofInt (0 + Int.ofNat k) :=
    ⟨_, rfl⟩
  have hspan : (!Scalar.isFinite (Scalar.floor (ERat.fin 65535) - Scalar.ceil (ERat.fin 0)) ||
      decide (Scalar.ofInt maxSpan ≤ Scalar.floor (ERat.fin 65535) - Scalar.ceil (ERat.fin 0))) =
        false := by
    decide +kernel
  have hcand : ∀ name, candidates (⟨name, .integer, .fin 0, .fin 65535, none⟩ : Column ERat) =
      some cs := by
    intro name
    rw [candidates_of_unlisted rfl rfl, hcs]
    dsimp only
    rw [hspan]
    rfl
  refine ⟨cs, by simp [hcs], fun y hy => ?_, ?_⟩
  · rw [hcs] at hy
    obtain ⟨z, rfl, -, hz⟩ := mem_countOut_iff.1 hy
    exact ⟨z, rfl, hz⟩
  -- the branching order is the columns' own, and the row's level is the place of `y`
  have hdoms : stallModel.columns.map candidates = #[some cs, some cs] := by
    simp only [stallModel, List.map_toArray, List.map_cons, List.map_nil, hcand]
  have horder : ∀ sizes, branchOrder stallModel { restart := some (.luby 1) } sizes = [0, 1] := by
    intro sizes
    have hmin : ({ restart := some (.luby 1) } : SearchConfig).byMinDomain = false := by decide
    simp only [branchOrder, hmin]
    rfl
  have hlevels : stallModel.rows.toList.mapM (rowLevel 2 (placeTable 2 [0, 1])) = .ok [some 1] :=
    rfl
  have hany : (#[some cs, some cs].any fun a => a.isNone) = false := by
    simp only [List.any_toArray, List.any_cons, List.any_nil, Option.isNone_some, Bool.or_false]
  have hlf : ({ restart := some (.luby 1) } : SearchConfig).largestFirst = false := by decide
  have hplan : Plan.levelsOf #[some cs, some cs] [0, 1] [some 1] false =
      [⟨0, cs, []⟩, ⟨1, cs, [0]⟩] := rfl
  have hsize : stallModel.columns.size = 2 := rfl
  simp only [Plan.ofModel, hdoms, hsize, horder, hany, hlevels, hlf, Bool.false_eq_true, if_false]
  rw [← hplan]
  rfl

/-- The row of `stallModel` fails wherever `y` is an integer of its bounds. -/
theorem stallModel_row_fails {W : Array ERat} {z : Int} (hW : W.getD 1 Scalar.zero = .fin z)
    (hz : z ≤ 65535) : rowsHold stallModel.rows [0] W = false := by
  have hact : (⟨[(1, .fin 1)], .fin 65536, .posInf⟩ : Row ERat).activity W = .fin z := by
    simp only [Row.activity, List.map_cons, List.map_nil, hW, Scalar.sum, List.foldl_cons,
      List.foldl_nil]
    show ERat.fin (0 + 1 * (z : ℚ)) = _
    rw [zero_add, one_mul]
  have hlow := ERat.fin_sub_tolerance_le_iff 65536 z
  simp only [Int.cast_ofNat] at hlow
  simp only [rowsHold, List.all_cons, List.all_nil, Bool.and_true]
  show (Row.isSatisfied ⟨[(1, .fin 1)], .fin 65536, .posInf⟩ W tolerance) = false
  simp only [Row.isSatisfied, hact, hlow, Bool.and_eq_false_iff, decide_eq_false_iff_not]
  left
  omega

/-- Under the Luby policy of base `1`, which validation admits, and without a failure limit,
one run of the search of `stallModel` must be allowed `2^32 - 1` failures, above the greatest
cutoff `2^31` of the `2^32` runs counted: no run completes, and none finds a solution. -/
theorem stallModel_luby_never_completes :
    stallModel.demand { restart := some (.luby 1) } = 2 ^ 32 - 1 ∧
      stallModel.runsComplete { restart := some (.luby 1) } = false := by
  obtain ⟨cs, hlen, hmem, hplan⟩ := stallModel_plan
  obtain ⟨x, xs, rfl⟩ : ∃ x xs, cs = x :: xs := List.exists_cons_of_length_pos (by omega)
  have hxs : xs.length = 65535 := by simpa using hlen
  have hdemand : stallModel.demand { restart := some (.luby 1) } = 2 ^ 32 - 1 := by
    simp only [FlatModel.demand, hplan, Plan.demand]
    rw [if_pos (show rowsHold stallModel.rows [] stallModel.startWalk.values = true from rfl)]
    -- each value of `x` leads to `2^16` failures of `y`, behind one check each
    have hy : ∀ V : Array ERat, V.size = 2 → Stretch stallModel.searchGoal
        (events stallModel.rows [⟨1, x :: xs, [0]⟩] V) xs.length (xs.length + 1) := by
      intro V hV
      refine Stretch.events_of_fail rfl fun y hy => ?_
      obtain ⟨z, rfl, hz⟩ := hmem y hy
      exact stallModel_row_fails (by simp [Array.getD, hV]) hz
    have hx : Stretch stallModel.searchGoal
        (events stallModel.rows [⟨0, x :: xs, []⟩, ⟨1, x :: xs, [0]⟩] stallModel.startWalk.values)
        (xs.length * (xs.length + 1) + xs.length) ((xs.length + 1) * (xs.length + 1)) :=
      Stretch.events_of_pass rfl fun y _ =>
        ⟨rfl, hy _ (by rw [Array.size_setIfInBounds]; rfl)⟩
    rw [hx.demand_eq, hxs]
    norm_num
  refine ⟨hdemand, ?_⟩
  have hpeak : RestartPolicy.lubyPeak 1 = 2 ^ 31 := by decide
  have h :=
    runsComplete_iff_exists_cutoff stallModel { restart := some (.luby 1) } rfl (.luby 1) rfl
  rw [RestartPolicy.exists_luby_cutoff_gt_iff, hdemand, hpeak] at h
  exact Bool.eq_false_iff.2 fun ht => absurd (h.1 ht) (by norm_num)

end FlatModel

end MipLowering
