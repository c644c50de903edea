import Mathlib
import MipLowering.Search.Restart

/-!
# The Luby sequence of the restart loops

`luby` computes the Luby sequence `1 1 2 1 1 2 4 …` as its source does, by two loops on a counter
`i` that starts at `run + 1`: an inner loop counts an exponent `k` up from `1` until
`i ≤ 2^k - 1`, and the outer loop returns `2^(k-1)` when `i = 2^k - 1` and otherwise takes
`2^(k-1) - 1` away from `i`. The sequence is usually given by its recursive equations,
`L(2^k - 1) = 2^(k-1)` and `L(j) = L(j - 2^(k-1) + 1)` when `2^(k-1) ≤ j < 2^k - 1`
(`LubySequence`). The loops compute exactly it: the inner loop stops at the one `k` with
`2^(k-1) ≤ i ≤ 2^k - 1` (`lubyExponent_eq`), so each pass of the outer loop is one use of an
equation, and any sequence with the equations agrees with the loops
(`luby_eq_of_lubySequence`). A Luby cutoff is the base times a term, saturated to a word and at
least `1`.

Over the `2^32` runs of a 32-bit counter the loops are safe on 64-bit words: the counter stays
between `1` and `run + 1`, every exponent is at most `33`, so no shift overflows, and a pass that
does not return takes away an amount that is positive and below the counter, so nothing
underflows and each pass brings the loop closer to its end (`LubyVisits.passSafe`).

## Main definitions

* `MipLowering.LubySequence` — the recursive equations of the Luby sequence.
* `MipLowering.LubyVisits` — the counters the outer loop passes through.
* `MipLowering.LubyPassSafe` — one pass of the outer loop stays within 64-bit words.

## Main results

* `MipLowering.lubyExponent_eq` — the inner loop finds the exponent of the counter.
* `MipLowering.lubySequence_luby`, `MipLowering.luby_eq_of_lubySequence` — the loops compute the
  sequence of the recursive equations.
* `MipLowering.two_mul_luby_le`, `MipLowering.luby_two_pow_sub_two` — the largest terms.
* `MipLowering.LubyVisits.lubyLoop_eq` — the counters the outer loop passes through give one term.
* `MipLowering.LubyVisits.passSafe` — the passes of a 32-bit run.
* `MipLowering.luby_cutoff_follows_sequence`.
-/

namespace MipLowering

/-! ### The inner loop -/

/-- The inner loop stops at the one `k ≥ 1` with `2^(k-1) ≤ i ≤ 2^k - 1`. -/
theorem lubyExponent_eq {i k : Nat} (hk : 1 ≤ k) (hlo : 2 ^ (k - 1) ≤ i) (hhi : i ≤ 2 ^ k - 1) :
    lubyExponent i 1 = k := by
  have hcover := le_lubyExponent_bound i 1
  rw [Nat.one_shiftLeft] at hcover
  rcases Nat.lt_trichotomy (lubyExponent i 1) k with hlt | heq | hgt
  · -- an earlier stop would leave `i ≤ 2^(k-1) - 1`
    have hpow : 2 ^ lubyExponent i 1 ≤ 2 ^ (k - 1) := Nat.pow_le_pow_right (by omega) (by omega)
    have hpos : 1 ≤ 2 ^ lubyExponent i 1 := Nat.one_le_two_pow
    omega
  · exact heq
  · -- a later stop means that `2^k - 1` was still short of `i`
    have hpred := lubyExponent_pred_bound_lt i 1 (by omega)
    rw [Nat.one_shiftLeft] at hpred
    have hpow : 2 ^ k ≤ 2 ^ (lubyExponent i 1 - 1) := Nat.pow_le_pow_right (by omega) (by omega)
    omega

theorem two_pow_pred_le {k : Nat} (hk : 1 ≤ k) : 2 ^ (k - 1) ≤ 2 ^ k - 1 := by
  have hsplit : 2 ^ k = 2 ^ (k - 1) * 2 := by rw [← pow_succ, Nat.sub_add_cancel hk]
  have hpos : 1 ≤ 2 ^ (k - 1) := Nat.one_le_two_pow
  omega

/-! ### The outer loop -/

theorem lubyLoop_congr {i j : Nat} (h : i = j) (hi : 0 < i) (hj : 0 < j) :
    lubyLoop i hi = lubyLoop j hj := by
  subst h
  rfl

/-- At `2^k - 1` the outer loop returns `2^(k-1)`. -/
theorem lubyLoop_two_pow_sub_one {k : Nat} (hk : 1 ≤ k) (h : 0 < 2 ^ k - 1) :
    lubyLoop (2 ^ k - 1) h = 2 ^ (k - 1) := by
  have hexp : lubyExponent (2 ^ k - 1) 1 = k := lubyExponent_eq hk (two_pow_pred_le hk) le_rfl
  rw [lubyLoop, dif_pos (by rw [hexp, Nat.one_shiftLeft]), hexp, Nat.one_shiftLeft]

/-- Between `2^(k-1)` and `2^k - 1` the outer loop moves on to `j - 2^(k-1) + 1`. -/
theorem lubyLoop_of_lt {j k : Nat} (hlo : 2 ^ (k - 1) ≤ j) (hhi : j < 2 ^ k - 1) (hj : 0 < j)
    (hnext : 0 < j - 2 ^ (k - 1) + 1) : lubyLoop j hj = lubyLoop (j - 2 ^ (k - 1) + 1) hnext := by
  have hk : 1 ≤ k := by
    rcases Nat.eq_zero_or_pos k with rfl | hpos
    · simp at hhi
    · exact hpos
  have hexp : lubyExponent j 1 = k := lubyExponent_eq hk hlo (by omega)
  rw [lubyLoop, dif_neg (by rw [hexp, Nat.one_shiftLeft]; omega)]
  apply lubyLoop_congr
  rw [hexp, Nat.one_shiftLeft]
  have hpos : 1 ≤ 2 ^ (k - 1) := Nat.one_le_two_pow
  omega

/-! ### The recursive definition -/

/-- The recursive equations of the Luby sequence, from index `1`. -/
structure LubySequence (L : Nat → Nat) : Prop where
  two_pow_sub_one : ∀ k, 1 ≤ k → L (2 ^ k - 1) = 2 ^ (k - 1)
  of_lt : ∀ k j, 2 ^ (k - 1) ≤ j → j < 2 ^ k - 1 → L j = L (j - 2 ^ (k - 1) + 1)

/-- The terms the loops compute satisfy the recursive equations. -/
theorem lubySequence_luby : LubySequence fun j => luby (j - 1) where
  two_pow_sub_one k hk := by
    have h : 0 < 2 ^ k - 1 := Nat.lt_of_lt_of_le Nat.one_le_two_pow (two_pow_pred_le hk)
    change lubyLoop (2 ^ k - 1 - 1 + 1) _ = _
    rw [lubyLoop_congr (Nat.sub_add_cancel h) _ h, lubyLoop_two_pow_sub_one hk h]
  of_lt k j hlo hhi := by
    have hj : 0 < j := Nat.lt_of_lt_of_le Nat.one_le_two_pow hlo
    change lubyLoop (j - 1 + 1) _ = lubyLoop (j - 2 ^ (k - 1) + 1 - 1 + 1) _
    rw [lubyLoop_congr (Nat.sub_add_cancel hj) _ hj, lubyLoop_of_lt hlo hhi hj (by omega)]
    exact lubyLoop_congr (by omega) _ _

/-- Two sequences with the recursive equations agree from index `1`. -/
theorem LubySequence.eq {L L' : Nat → Nat} (hL : LubySequence L) (hL' : LubySequence L') :
    ∀ j, 1 ≤ j → L j = L' j := by
  intro j
  -- strong induction: an equation moves the index down, and `2^k - 1` ends it
  induction j using Nat.strong_induction_on with
  | _ j ih =>
  intro hj
  have hlo : 2 ^ (j.log2 + 1 - 1) ≤ j := by
    rw [Nat.add_sub_cancel]
    exact Nat.log2_self_le (by omega)
  have hhi : j < 2 ^ (j.log2 + 1) := Nat.lt_log2_self
  rcases Nat.lt_or_ge j (2 ^ (j.log2 + 1) - 1) with hlt | hge
  · -- `j` is not `2^k - 1`, so `k ≥ 2` and the equation moves the index down
    have htwo : 2 ≤ 2 ^ (j.log2 + 1 - 1) := by
      rcases Nat.eq_zero_or_pos j.log2 with hzero | hpos
      · rw [hzero] at hlt
        omega
      · rw [Nat.add_sub_cancel]
        exact Nat.le_self_pow (by omega) 2
    rw [hL.of_lt _ j hlo hlt, hL'.of_lt _ j hlo hlt]
    exact ih _ (by omega) (by omega)
  · have hj' : j = 2 ^ (j.log2 + 1) - 1 := by omega
    rw [hj', hL.two_pow_sub_one _ (by omega), hL'.two_pow_sub_one _ (by omega)]

/-- The loops compute the sequence of the recursive equations. -/
theorem luby_eq_of_lubySequence {L : Nat → Nat} (hL : LubySequence L) (run : Nat) :
    luby run = L (run + 1) :=
  lubySequence_luby.eq hL (run + 1) (Nat.succ_pos run)

/-! ### The largest terms -/

/-- A term never exceeds half of its counter plus one half. -/
theorem two_mul_lubyLoop_le (i : Nat) (hi : 0 < i) : 2 * lubyLoop i hi ≤ i + 1 := by
  induction i using Nat.strong_induction_on with
  | _ i ih =>
  rw [lubyLoop]
  split
  · next h =>
    -- the term is `2^(k-1)` at the counter `2^k - 1`
    have hk : 1 ≤ lubyExponent i 1 := le_lubyExponent i 1
    have hsplit : 2 ^ lubyExponent i 1 = 2 ^ (lubyExponent i 1 - 1) * 2 := by
      rw [← pow_succ, Nat.sub_add_cancel hk]
    rw [Nat.one_shiftLeft] at h ⊢
    omega
  · next h =>
    obtain ⟨hpos, hlt⟩ := lubyExponent_step hi h
    exact Nat.le_trans (ih _ (by omega) _) (by omega)

theorem two_mul_luby_le (run : Nat) : 2 * luby run ≤ run + 2 :=
  two_mul_lubyLoop_le (run + 1) (Nat.succ_pos run)

/-- The term before a power of two, counted from `1`, is half that power. -/
theorem luby_two_pow_sub_two (k : Nat) : luby (2 ^ (k + 1) - 2) = 2 ^ k := by
  have h := lubySequence_luby.two_pow_sub_one (k + 1) (by omega)
  rw [Nat.add_sub_cancel, Nat.sub_sub] at h
  exact h

/-! ### The loops on 64-bit words -/

/-- The counters the outer loop passes through from `i`: a pass that does not return takes
`2^(k-1) - 1` away, for the exponent `k` of the inner loop. -/
inductive LubyVisits (i : Nat) : Nat → Prop
  | start : LubyVisits i i
  | pass {j : Nat} : LubyVisits i j → (1 <<< lubyExponent j 1) - 1 ≠ j →
      LubyVisits i (j - ((1 <<< (lubyExponent j 1 - 1)) - 1))

/-- The outer loop gives the same term from every counter it passes through. -/
theorem LubyVisits.lubyLoop_eq {i j : Nat} (h : LubyVisits i j) (hi : 0 < i) (hj : 0 < j) :
    lubyLoop i hi = lubyLoop j hj := by
  induction h with
  | start => rfl
  | @pass j _ hret ih =>
    have hpos : 0 < j := by
      have := (lubyExponent_step (i := j) (by omega) hret).2
      omega
    rw [ih hpos, lubyLoop, dif_neg hret]

/-- One pass of the outer loop at counter `j` stays within 64-bit words: the inner loop counts
from `1` to an exponent below `64`, so no shift overflows, and a pass that does not return takes
away an amount that is positive and below `j`. -/
structure LubyPassSafe (j : Nat) : Prop where
  exponent_pos : 1 ≤ lubyExponent j 1
  exponent_lt : lubyExponent j 1 < 64
  progress : (1 <<< lubyExponent j 1) - 1 ≠ j →
    0 < (1 <<< (lubyExponent j 1 - 1)) - 1 ∧ (1 <<< (lubyExponent j 1 - 1)) - 1 < j

/-- A pass at a counter between `1` and `2^32` is safe. -/
theorem lubyPassSafe {j : Nat} (hj : 0 < j) (hle : j ≤ 2 ^ 32) : LubyPassSafe j where
  exponent_pos := le_lubyExponent j 1
  exponent_lt := by
    -- past `k = 1` the exponent has `2^(k-1) - 1 < j ≤ 2^32`, so `k ≤ 33`
    by_contra hge
    have hpred := lubyExponent_pred_bound_lt j 1 (by omega)
    rw [Nat.one_shiftLeft] at hpred
    have hpow : 2 ^ 33 ≤ 2 ^ (lubyExponent j 1 - 1) := Nat.pow_le_pow_right (by omega) (by omega)
    omega
  progress := lubyExponent_step hj

/-- From the counter `run + 1` of a 32-bit run, the outer loop passes only through counters
between `1` and `run + 1`, and every pass is safe. -/
theorem LubyVisits.passSafe {run j : Nat} (hrun : run < 2 ^ 32) (h : LubyVisits (run + 1) j) :
    1 ≤ j ∧ j ≤ run + 1 ∧ LubyPassSafe j := by
  induction h with
  | start => exact ⟨by omega, le_rfl, lubyPassSafe (by omega) (by omega)⟩
  | pass _ hret ih =>
    obtain ⟨hpos, hle, hsafe⟩ := ih
    obtain ⟨hamount, hbelow⟩ := hsafe.progress hret
    exact ⟨by omega, by omega, lubyPassSafe (by omega) (by omega)⟩

/-! ### Luby cutoffs -/

namespace RestartPolicy

theorem cutoff_luby (base run : Nat) :
    (luby base).cutoff run = max (min (base * MipLowering.luby run) Scalar.wordMax) 1 := rfl

end RestartPolicy

/-- The Luby cutoffs follow the Luby sequence. The terms the loops compute satisfy the recursive
equations of the sequence, so that the cutoff of every run is the base times the term of any
sequence with those equations, saturated to a word and at least `1`. Over the runs of a 32-bit
counter the outer loop passes only through counters between `1` and `run + 1`, and every pass
stays within 64-bit words and moves the counter down. -/
theorem luby_cutoff_follows_sequence :
    LubySequence (fun j => luby (j - 1)) ∧
    (∀ L : Nat → Nat, LubySequence L → ∀ base run : Nat,
      (RestartPolicy.luby base).cutoff run = max (min (base * L (run + 1)) Scalar.wordMax) 1) ∧
    (∀ run j : Nat, run < 2 ^ 32 → LubyVisits (run + 1) j →
      1 ≤ j ∧ j ≤ run + 1 ∧ LubyPassSafe j) := by
  refine ⟨lubySequence_luby, fun L hL base run => ?_, fun run j hrun h => h.passSafe hrun⟩
  rw [RestartPolicy.cutoff_luby, luby_eq_of_lubySequence hL]

/-- Run `6` of the Luby policy of base `10` has cutoff `40`, and the passes of its loop are safe. -/
theorem lubyTen_sixth_cutoff :
    (RestartPolicy.luby 10).cutoff 6 = 40 ∧
      ∀ j, LubyVisits 7 j → 1 ≤ j ∧ j ≤ 7 ∧ LubyPassSafe j := by
  have hterm : luby 6 = 4 := luby_two_pow_sub_two 2
  refine ⟨?_, fun j h => luby_cutoff_follows_sequence.2.2 6 j (by norm_num) h⟩
  rw [luby_cutoff_follows_sequence.2.1 _ luby_cutoff_follows_sequence.1 10 6, Nat.add_sub_cancel,
    hterm]
  rfl

example : (List.range 7).map (RestartPolicy.luby 10).cutoff = [10, 10, 20, 10, 10, 20, 40] := by
  decide +kernel

end MipLowering
