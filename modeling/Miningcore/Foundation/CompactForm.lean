import Mathlib.Algebra.Order.Ring.Nat
import Mathlib.Data.Nat.Size
import Mathlib.Tactic.Common

/-!
# Numbers with a short mantissa

A number is stored as a mantissa below a bound and an exponent of a base. What does not fit
is cut off, which loses nothing if and only if the number has that form.
-/

namespace Foundation

variable {base bound n scale : ℕ}

def HasCompactForm (base bound n : ℕ) : Prop :=
  ∃ mantissa exponent, mantissa < bound ∧ n = mantissa * base ^ exponent

/-- The smallest exponent that leaves a mantissa below the bound. -/
structure IsScale (base bound n scale : ℕ) : Prop where
  lt : n < bound * base ^ scale
  le : scale = 0 ∨ bound * base ^ (scale - 1) ≤ n

/-- A number with its digits below an exponent cut off. -/
def cutOff (base scale n : ℕ) : ℕ := n / base ^ scale * base ^ scale

theorem cutOff_le (base scale n : ℕ) : cutOff base scale n ≤ n := Nat.div_mul_le_self _ _

/-- Cutting off keeps the order, as the bound has one more digit than is left. -/
theorem IsScale.cutOff_le_cutOff {n' scale' : ℕ} (h : IsScale base bound n scale)
    (h' : IsScale base bound n' scale') (hbase : 0 < base) (hbound : base ∣ bound) (hle : n ≤ n') :
    cutOff base scale n ≤ cutOff base scale' n' := by
  obtain hlt | rfl | hgt := lt_trichotomy scale scale'
  · obtain ⟨digits, rfl⟩ := hbound
    obtain hzero | hlarge := h'.le
    · omega
    · -- the least number with the larger scale has nothing to be cut off
      have hpow : base * digits * base ^ (scale' - 1) = digits * base ^ scale' := by
        obtain ⟨scale', rfl⟩ : ∃ s, scale' = s + 1 := ⟨scale' - 1, by omega⟩
        rw [Nat.add_sub_cancel, Nat.pow_succ]
        ac_rfl
      calc cutOff base scale n ≤ n := cutOff_le base scale n
        _ ≤ base * digits * base ^ scale := h.lt.le
        _ ≤ base * digits * base ^ (scale' - 1) :=
          Nat.mul_le_mul_left _ (Nat.pow_le_pow_right hbase (by omega))
        _ = digits * base ^ scale' := hpow
        _ ≤ cutOff base scale' n' := Nat.mul_le_mul_right _
          ((Nat.le_div_iff_mul_le (Nat.pow_pos hbase)).mpr (hpow ▸ hlarge))
  · exact Nat.mul_le_mul_right _ (Nat.div_le_div_right hle)
  · exfalso
    obtain hzero | hlarge := h.le
    · omega
    · have hpow : bound * base ^ scale' ≤ bound * base ^ (scale - 1) :=
        Nat.mul_le_mul_left _ (Nat.pow_le_pow_right hbase (by omega))
      have hlt := h'.lt
      omega

/-- Only a number of the compact form keeps all of its digits. -/
theorem IsScale.cutOff_eq_iff (h : IsScale base bound n scale) (hbase : 0 < base) :
    cutOff base scale n = n ↔ HasCompactForm base bound n := by
  have hpow : 0 < base ^ scale := Nat.pow_pos hbase
  constructor
  · intro heq
    exact ⟨n / base ^ scale, scale, Nat.div_lt_of_lt_mul (by rw [Nat.mul_comm]; exact h.lt),
      heq.symm⟩
  · rintro ⟨mantissa, exponent, hmantissa, rfl⟩
    refine Nat.div_mul_cancel ?_
    by_cases hle : scale ≤ exponent
    · exact Dvd.dvd.mul_left (Nat.pow_dvd_pow base hle) mantissa
    · -- a smaller exponent would leave less than the bound before the last digit
      exfalso
      have hsmall : mantissa * base ^ exponent < bound * base ^ (scale - 1) :=
        calc mantissa * base ^ exponent
            < bound * base ^ exponent := Nat.mul_lt_mul_of_pos_right hmantissa (Nat.pow_pos hbase)
          _ ≤ bound * base ^ (scale - 1) :=
            Nat.mul_le_mul_left _ (Nat.pow_le_pow_right hbase (by omega))
      obtain hzero | hlarge := h.le
      · omega
      · exact absurd hsmall (not_lt.mpr hlarge)

/-- A number is of the compact form if all up to it are at most what it is cut off to. -/
theorem IsScale.forall_le_cutOff_iff (h : IsScale base bound n scale) (hbase : 0 < base) :
    (∀ m ≤ n, m ≤ cutOff base scale n) ↔ HasCompactForm base bound n := by
  rw [← h.cutOff_eq_iff hbase]
  constructor
  · intro hall
    exact le_antisymm (cutOff_le base scale n) (hall n (le_refl n))
  · intro heq m hm
    rwa [heq]

/-- What is cut off is less than the last digit of the mantissa. -/
theorem IsScale.sub_cutOff_mul_lt (h : IsScale base bound n scale) (hbase : 0 < base)
    (hpos : 0 < n) : (n - cutOff base scale n) * bound < n * base := by
  have hcut : n - cutOff base scale n = n % base ^ scale := Nat.mod_eq_sub_div_mul.symm
  rw [hcut]
  cases scale with
  | zero =>
      rw [Nat.pow_zero, Nat.mod_one, Nat.zero_mul]
      exact Nat.mul_pos hpos hbase
  | succ scale =>
      have hle : bound * base ^ scale ≤ n := h.le.resolve_left (Nat.succ_ne_zero scale)
      have hpow : 0 < base ^ (scale + 1) := Nat.pow_pos hbase
      obtain hzero | hbound := Nat.eq_zero_or_pos bound
      · rw [hzero, Nat.mul_zero]
        exact Nat.mul_pos hpos hbase
      · calc n % base ^ (scale + 1) * bound
            < base ^ (scale + 1) * bound := Nat.mul_lt_mul_of_pos_right (Nat.mod_lt n hpow) hbound
          _ = bound * base ^ scale * base := by
            rw [Nat.pow_succ]
            ac_rfl
          _ ≤ n * base := Nat.mul_le_mul_right base hle

/-- A number of signed bytes has 23 bits in the highest three of them. -/
theorem isScale_size (n : ℕ) : IsScale 256 (2 ^ 23) n (Nat.size n / 8 - 2) := by
  constructor
  · calc n < 2 ^ Nat.size n := Nat.lt_size_self n
      _ ≤ 2 ^ (23 + 8 * (Nat.size n / 8 - 2)) := Nat.pow_le_pow_right two_pos (by omega)
      _ = 2 ^ 23 * 256 ^ (Nat.size n / 8 - 2) := by
          rw [pow_add, pow_mul]
          rfl
  · obtain hsmall | hlarge := Nat.eq_zero_or_pos (Nat.size n / 8 - 2)
    · exact Or.inl hsmall
    · right
      calc 2 ^ 23 * 256 ^ (Nat.size n / 8 - 2 - 1)
          = 2 ^ (23 + 8 * (Nat.size n / 8 - 2 - 1)) := by
            rw [pow_add, pow_mul]
            rfl
        _ ≤ n := Nat.lt_size.mp (by omega)

end Foundation
