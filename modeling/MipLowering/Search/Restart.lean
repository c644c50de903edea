import MipLowering.Error
import MipLowering.Scalar.Float
/-!
# Restart policies

A restarting search is given a failure budget per run: the *cutoff* of run `r` (from `0`). Three
policies are known: the Luby sequence `1 1 2 1 1 2 4 …` times a base, a geometric growth
`base · factor^r`, and their product. Cutoffs are 64-bit words: products saturate, doubles are
truncated with saturation, and a cutoff is never below `1`. The run number enters the power as a
32-bit signed integer, and the power is taken by repeated squaring.

## Main definitions

* `MipLowering.lubyExponent`, `MipLowering.lubyLoop`, `MipLowering.luby` — the Luby sequence, from
  run `0`, by an inner loop that finds an exponent and an outer one that moves the index down.
* `MipLowering.powi` — an integer power of a double by repeated squaring.
* `MipLowering.RestartPolicy`, `MipLowering.RestartPolicy.cutoff`,
  `MipLowering.RestartPolicy.validate`.
-/

namespace MipLowering

/-- The inner loop of `luby`: counts `k` up while `2^k - 1 < i`, so that it stops at the least `k`
from the start with `i ≤ 2^k - 1`. -/
def lubyExponent (i k : Nat) : Nat :=
  if (1 <<< k) - 1 < i then lubyExponent i (k + 1) else k
termination_by i - k
decreasing_by
  have hk : k < 1 <<< k := by
    rw [Nat.one_shiftLeft]
    exact Nat.lt_two_pow_self
  omega

theorem le_lubyExponent (i k : Nat) : k ≤ lubyExponent i k := by
  fun_induction lubyExponent i k with
  | case1 k h ih => omega
  | case2 k h => exact Nat.le_refl k

theorem le_lubyExponent_bound (i k : Nat) : i ≤ (1 <<< lubyExponent i k) - 1 := by
  fun_induction lubyExponent i k with
  | case1 k h ih => exact ih
  | case2 k h => exact Nat.le_of_not_lt h

/-- The loop does not stop early: below the exponent it stops at, `2^k - 1` is still short
of `i`. -/
theorem lubyExponent_pred_bound_lt (i k : Nat) (h : k < lubyExponent i k) :
    (1 <<< (lubyExponent i k - 1)) - 1 < i := by
  induction k using lubyExponent.induct i with
  | case1 k hlt ih =>
    rw [lubyExponent, if_pos hlt] at h ⊢
    by_cases hk : k + 1 < lubyExponent i (k + 1)
    · exact ih hk
    · -- the loop stops right after `k`
      have hstop : lubyExponent i (k + 1) = k + 1 :=
        Nat.le_antisymm (Nat.le_of_not_lt hk) (le_lubyExponent i (k + 1))
      rw [hstop, Nat.add_sub_cancel]
      exact hlt
  | case2 k hge =>
    rw [lubyExponent, if_neg hge] at h
    exact absurd h (Nat.lt_irrefl k)

/-- An outer step of `luby` from `i ≥ 1` that does not return takes away `2^(k-1) - 1`, which is
positive and below `i`. -/
theorem lubyExponent_step {i : Nat} (hi : 0 < i) (h : ¬(1 <<< lubyExponent i 1) - 1 = i) :
    0 < (1 <<< (lubyExponent i 1 - 1)) - 1 ∧ (1 <<< (lubyExponent i 1 - 1)) - 1 < i := by
  have hcover := le_lubyExponent_bound i 1
  have hone : 1 ≤ lubyExponent i 1 := le_lubyExponent i 1
  -- the loop went past `k = 1`, since `2^1 - 1 = 1 ≤ i`
  have hpast : 1 < lubyExponent i 1 := by
    rcases Nat.lt_or_eq_of_le hone with hlt | heq
    · exact hlt
    · rw [← heq] at h hcover
      exact absurd (by rw [Nat.one_shiftLeft] at hcover ⊢; omega) h
  have hpow : 2 ≤ 1 <<< (lubyExponent i 1 - 1) := by
    rw [Nat.one_shiftLeft]
    exact Nat.le_self_pow (by omega) 2
  exact ⟨by omega, lubyExponent_pred_bound_lt i 1 hpast⟩

/-- The outer loop of `luby` on `i ≥ 1`: it returns `2^(k-1)` at `i = 2^k - 1`, for the `k` of the
inner loop, and goes on at `i - (2^(k-1) - 1)` otherwise. -/
def lubyLoop (i : Nat) (hi : 0 < i) : Nat :=
  if h : (1 <<< lubyExponent i 1) - 1 = i then 1 <<< (lubyExponent i 1 - 1)
  else lubyLoop (i - ((1 <<< (lubyExponent i 1 - 1)) - 1))
    (Nat.sub_pos_of_lt (lubyExponent_step hi h).2)
termination_by i
decreasing_by exact Nat.sub_lt hi (lubyExponent_step hi h).1

/-- The `run`-th term (from `0`) of the Luby sequence `1 1 2 1 1 2 4 …`, by two loops from
`i = run + 1`. -/
def luby (run : Nat) : Nat := lubyLoop (run + 1) (Nat.succ_pos run)

/-- Multiplies `r` by the powers `a^(2^j)` for the bits `j` of `b`, lowest bit first. -/
def powiLoop (a r : Float) (b : Nat) : Float :=
  let r := if b % 2 == 1 then r * a else r
  if h : b / 2 = 0 then r else powiLoop (a * a) r (b / 2)
termination_by b
decreasing_by omega

/-- `a^n` by repeated squaring over the bits of `|n|`, inverted for negative `n`. -/
def powi (a : Float) (n : Int) : Float :=
  let r := powiLoop a 1.0 n.natAbs
  if n < 0 then 1.0 / r else r

/-- A run number read as a 32-bit signed integer. -/
def runAsInt32 (run : Nat) : Int :=
  let r : Nat := run % 4294967296
  if r < 2147483648 then Int.ofNat r else Int.ofNat r - 4294967296

/-- How the failure budget of successive runs grows. -/
inductive RestartPolicy
  | luby (base : Nat)
  | geometric (base : Nat) (factor : Float)
  | geometricLuby (base : Nat) (factor : Float)

namespace RestartPolicy

/-- The failure budget of run `run`: at least `1`, at most the greatest 64-bit word. -/
def cutoff (p : RestartPolicy) (run : Nat) : Nat :=
  let raw :=
    match p with
    | .luby base => Nat.min (base * MipLowering.luby run) Scalar.wordMax
    | .geometric base factor =>
      Scalar.toWord (Float.ofNat base * powi factor (runAsInt32 run))
    | .geometricLuby base factor =>
      Scalar.toWord
        (Float.ofNat base * powi factor (runAsInt32 run) * Float.ofNat (MipLowering.luby run))
  Nat.max raw 1

/-- A base of at least `1` and a finite factor of at least `1`. The Luby policy has factor `1`. -/
def validate {α : Type} (p : RestartPolicy) : Except (ModelError α) Unit :=
  let (base, factor) : Nat × Float :=
    match p with
    | .luby base => (base, 1.0)
    | .geometric base factor => (base, factor)
    | .geometricLuby base factor => (base, factor)
  if base == 0 then .error (.invalidConfig .restartBase)
  else if !(decide (1.0 ≤ factor) && factor.isFinite) then
    .error (.invalidConfig (.restartFactor factor))
  else .ok ()

end RestartPolicy

end MipLowering
