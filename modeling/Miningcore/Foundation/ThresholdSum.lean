import Mathlib.Algebra.BigOperators.Ring.Finset
import Mathlib.Algebra.Order.Field.Basic
import Mathlib.Algebra.Order.BigOperators.Group.Finset
import Mathlib.Algebra.Order.Floor.Semiring
import Mathlib.Order.Interval.Finset.Nat
import Mathlib.Tactic.LinearCombination
import Mathlib.Tactic.Linarith
import Mathlib.Tactic.Ring

/-!
# Sums of what a threshold pays

A number pays a level if the level times the number is within a bound. All numbers
together pay no more than the bound, and the first ones less by at most a level.
-/

namespace Foundation

variable {𝕜 : Type*} [Field 𝕜] [LinearOrder 𝕜]

/-- What a number pays at a level. -/
def levelPay (bound level : 𝕜) (n : ℕ) : 𝕜 := if level * n ≤ bound then level else 0

/-- What a number pays at the first of two levels that it can pay. -/
def twoLevelPay (bound current previous : 𝕜) (n : ℕ) : 𝕜 :=
  if current * n ≤ bound then current else levelPay bound previous n

variable [IsStrictOrderedRing 𝕜] [FloorSemiring 𝕜] {bound level : 𝕜}

theorem mul_le_iff_le_floor (hbound : 0 ≤ bound) (hlevel : 0 < level) (n : ℕ) :
    level * n ≤ bound ↔ n ≤ ⌊bound / level⌋₊ := by
  rw [Nat.le_floor_iff (div_nonneg hbound hlevel.le), le_div_iff₀ hlevel, mul_comm]

/-- Positive numbers pay no more than the bound at a level. -/
theorem sum_levelPay_le (hbound : 0 ≤ bound) (hlevel : 0 < level)
    {numbers : Finset ℕ} (hzero : 0 ∉ numbers) :
    ∑ n ∈ numbers, levelPay bound level n ≤ bound := by
  have hsubset : (numbers.filter fun n : ℕ => level * n ≤ bound) ⊆
      Finset.Icc 1 ⌊bound / level⌋₊ := by
    intro n hn
    obtain ⟨hmem, hle⟩ := Finset.mem_filter.mp hn
    rw [Finset.mem_Icc, ← mul_le_iff_le_floor hbound hlevel]
    exact ⟨Nat.one_le_iff_ne_zero.mpr (ne_of_mem_of_not_mem hmem hzero), hle⟩
  have hcard : ((numbers.filter fun n : ℕ => level * n ≤ bound).card : 𝕜) ≤ bound / level := by
    refine le_trans (Nat.cast_le.mpr ?_) (Nat.floor_le (div_nonneg hbound hlevel.le))
    simpa using Finset.card_le_card hsubset
  calc ∑ n ∈ numbers, levelPay bound level n
      = (numbers.filter fun n : ℕ => level * n ≤ bound).card * level := by
        simp only [levelPay]
        rw [← Finset.sum_filter, Finset.sum_const, nsmul_eq_mul]
    _ ≤ bound / level * level := mul_le_mul_of_nonneg_right hcard hlevel.le
    _ = bound := div_mul_cancel₀ bound hlevel.ne'

/-- The first numbers miss the bound by less than the level. -/
theorem lt_sum_levelPay (hbound : 0 ≤ bound) (hlevel : 0 < level) {last : ℕ}
    (hlast : ⌊bound / level⌋₊ ≤ last) :
    bound - level < ∑ n ∈ Finset.Icc 1 last, levelPay bound level n := by
  have hpaid : ((Finset.Icc 1 last).filter fun n : ℕ => level * n ≤ bound) =
      Finset.Icc 1 ⌊bound / level⌋₊ := by
    ext n
    rw [Finset.mem_filter, Finset.mem_Icc, Finset.mem_Icc, mul_le_iff_le_floor hbound hlevel]
    omega
  have hfloor : bound < (⌊bound / level⌋₊ + 1) * level := by
    rw [← div_lt_iff₀ hlevel]
    exact Nat.lt_floor_add_one _
  simp only [levelPay]
  rw [← Finset.sum_filter, hpaid, Finset.sum_const, Nat.card_Icc, nsmul_eq_mul]
  push_cast
  linarith

section twoLevels

variable {current previous : 𝕜}

omit [FloorSemiring 𝕜]

/-- What the higher level pays, a lower one pays too. -/
theorem twoLevelPay_of_le (hle : current ≤ previous) (n : ℕ) :
    twoLevelPay bound current previous n = levelPay bound current n := by
  by_cases h : current * n ≤ bound
  · rw [twoLevelPay, if_pos h, levelPay, if_pos h]
  · have hhigher : ¬ previous * n ≤ bound := fun hpays =>
      h ((mul_le_mul_of_nonneg_right hle n.cast_nonneg).trans hpays)
    rw [twoLevelPay, levelPay, levelPay, if_neg h, if_neg h, if_neg hhigher]

/-- Below the current level, the previous one pays besides what the current one adds to it. -/
theorem twoLevelPay_of_lt (hcurrent : 0 < current) (hlt : previous < current) (n : ℕ) :
    twoLevelPay bound current previous n =
      levelPay bound previous n + (1 - previous / current) * levelPay bound current n := by
  have hcancel : previous / current * current = previous := div_mul_cancel₀ previous hcurrent.ne'
  by_cases h : current * n ≤ bound
  · have hlower : previous * n ≤ bound :=
      (mul_le_mul_of_nonneg_right hlt.le n.cast_nonneg).trans h
    simp only [twoLevelPay, levelPay, if_pos h, if_pos hlower]
    linear_combination hcancel
  · simp only [twoLevelPay, levelPay, if_neg h, mul_zero, add_zero]

end twoLevels

section sums

variable {current previous : 𝕜} (hbound : 0 ≤ bound) (hcurrent : 0 < current)
  (hprevious : 0 < previous)

include hbound hcurrent hprevious

/-- Two levels pay more than the bound by no more than the part the previous one is lower by. -/
theorem sum_twoLevelPay_le {numbers : Finset ℕ} (hzero : 0 ∉ numbers) :
    ∑ n ∈ numbers, twoLevelPay bound current previous n ≤
      bound * (1 + max 0 (1 - previous / current)) := by
  have hsum := sum_levelPay_le hbound hcurrent hzero
  obtain hle | hlt := le_or_gt current previous
  · have hratio : 0 ≤ max 0 (1 - previous / current) := le_max_left _ _
    calc ∑ n ∈ numbers, twoLevelPay bound current previous n
        = ∑ n ∈ numbers, levelPay bound current n :=
          Finset.sum_congr rfl fun n _ => twoLevelPay_of_le hle n
      _ ≤ bound := hsum
      _ ≤ bound * (1 + max 0 (1 - previous / current)) := by
          rw [mul_add, mul_one]
          exact le_add_of_nonneg_right (mul_nonneg hbound hratio)
  · have hratio : 0 ≤ 1 - previous / current := sub_nonneg.mpr ((div_le_one hcurrent).mpr hlt.le)
    calc ∑ n ∈ numbers, twoLevelPay bound current previous n
        = ∑ n ∈ numbers, levelPay bound previous n +
            (1 - previous / current) * ∑ n ∈ numbers, levelPay bound current n := by
          rw [Finset.mul_sum, ← Finset.sum_add_distrib]
          exact Finset.sum_congr rfl fun n _ => twoLevelPay_of_lt hcurrent hlt n
      _ ≤ bound + (1 - previous / current) * bound :=
          add_le_add (sum_levelPay_le hbound hprevious hzero)
            (mul_le_mul_of_nonneg_left hsum hratio)
      _ = bound * (1 + max 0 (1 - previous / current)) := by
          rw [max_eq_right hratio]
          ring

/-- The first numbers pay so much, less the current level. -/
theorem lt_sum_twoLevelPay (hlt : previous < current) {last : ℕ}
    (hlast : ⌊bound / previous⌋₊ ≤ last) :
    bound * (2 - previous / current) - current <
      ∑ n ∈ Finset.Icc 1 last, twoLevelPay bound current previous n := by
  have hratio : 0 < 1 - previous / current := sub_pos.mpr ((div_lt_one hcurrent).mpr hlt)
  have hlast' : ⌊bound / current⌋₊ ≤ last :=
    (Nat.floor_le_floor (div_le_div_of_nonneg_left hbound hprevious hlt.le)).trans hlast
  have hcancel : previous / current * current = previous := div_mul_cancel₀ previous hcurrent.ne'
  have hfirst := lt_sum_levelPay hbound hprevious hlast
  have hsecond := lt_sum_levelPay hbound hcurrent hlast'
  calc bound * (2 - previous / current) - current
      = (bound - previous) + (1 - previous / current) * (bound - current) := by
        linear_combination -hcancel
    _ < ∑ n ∈ Finset.Icc 1 last, levelPay bound previous n +
          (1 - previous / current) * ∑ n ∈ Finset.Icc 1 last, levelPay bound current n :=
        add_lt_add hfirst (mul_lt_mul_of_pos_left hsecond hratio)
    _ = ∑ n ∈ Finset.Icc 1 last, twoLevelPay bound current previous n := by
        rw [Finset.mul_sum, ← Finset.sum_add_distrib]
        exact Finset.sum_congr rfl fun n _ => (twoLevelPay_of_lt hcurrent hlt n).symm

end sums

end Foundation
