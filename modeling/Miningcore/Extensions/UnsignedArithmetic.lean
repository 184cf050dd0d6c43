import Mathlib.Algebra.Group.Nat.Defs
import Mathlib.Order.Iterate

/-!
# Unsigned arithmetic

Sums and differences of 64-bit numbers, which wrap around, and repeated steps that
do not while their values fit.
-/

namespace Miningcore

def addUlong (a b : ℕ) : ℕ := (a + b) % 2 ^ 64

def subUlong (a b : ℕ) : ℕ := (a + (2 ^ 64 - b % 2 ^ 64)) % 2 ^ 64

theorem subUlong_of_le {a b : ℕ} (ha : a < 2 ^ 64) (h : b ≤ a) : subUlong a b = a - b := by
  unfold subUlong
  omega

/-- A difference below zero is close to the largest number. -/
theorem subUlong_of_lt {a b : ℕ} (hb : b < 2 ^ 64) (h : a < b) :
    subUlong a b = 2 ^ 64 - (b - a) := by
  unfold subUlong
  omega

theorem subUlong_eq_zero_iff {a b : ℕ} (ha : a < 2 ^ 64) (hb : b < 2 ^ 64) :
    subUlong a b = 0 ↔ a = b := by
  unfold subUlong
  omega

/-- A sum that wraps around does no harm to a difference that does not. -/
theorem subUlong_addUlong_of_le {a b c : ℕ} (ha : a ≤ c) (hb : b < 2 ^ 64) (h : c ≤ a + b) :
    subUlong (addUlong a b) c = a + b - c := by
  unfold subUlong addUlong
  omega

theorem subUlong_addUlong_of_lt {a b c : ℕ} (hc : c < 2 ^ 64) (h : a + b < c) :
    subUlong (addUlong a b) c = 2 ^ 64 - (c - (a + b)) := by
  unfold subUlong addUlong
  omega

/-- A computation with a limit follows the unbounded one while the latter grows and
its last value stays below the limit. -/
theorem value_iterate_of_lt {α : Type*} (value : α → ℕ) (limit : ℕ) {step : α → α}
    {next : ℕ → ℕ} (hmono : Monotone next)
    (hstep : ∀ a, next (value a) < limit → value (step a) = next (value a))
    {a : α} (ha : value a ≤ next (value a)) {k : ℕ} (hk : next^[k] (value a) < limit) :
    value (step^[k] a) = next^[k] (value a) := by
  induction k with
  | zero => rfl
  | succ k ih =>
      have hle : next^[k] (value a) ≤ next^[k + 1] (value a) :=
        hmono.monotone_iterate_of_le_map ha k.le_succ
      have hvalue := ih (hle.trans_lt hk)
      rw [Function.iterate_succ_apply', ← hvalue] at hk
      rw [Function.iterate_succ_apply', Function.iterate_succ_apply', ← hvalue]
      exact hstep _ hk

end Miningcore
