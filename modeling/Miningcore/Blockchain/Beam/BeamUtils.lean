import Mathlib.Algebra.Order.Archimedean.Basic
import Mathlib.Algebra.Order.Field.Power
import Mathlib.Data.Int.Bitwise
import Mathlib.Data.Nat.Size
import Mathlib.Tactic.FieldSimp
import Miningcore.Foundation.DecimalRounding

/-!
# Packed difficulties of Beam

A packed difficulty has 24 bits of a mantissa below its order. The order is taken from
the bits of the difficulty rounded to a whole number, and the mantissa from the
difficulty itself. The two belong together unless rounding reaches the next power of
two.

## Implementation notes

Doubles are rationals. What is computed from a double is exact in doubles, too.
-/

namespace Foundation

/-! ## Bits of whole numbers -/

/-- The lowest bits of a number. -/
theorem land_two_pow_sub_one (n : ℤ) (width : ℕ) :
    Int.land n (2 ^ width - 1 : ℕ) = n % (2 ^ width : ℕ) := by
  cases n with
  | ofNat n =>
      change ((n &&& (2 ^ width - 1) : ℕ) : ℤ) = _
      rw [Nat.and_two_pow_sub_one_eq_mod]
      rfl
  | negSucc n =>
      have hlt := Nat.mod_lt n (Nat.two_pow_pos width)
      have hldiff : Nat.ldiff (2 ^ width - 1) n = 2 ^ width - (n % 2 ^ width + 1) := by
        apply Nat.eq_of_testBit_eq
        intro bit
        rw [Nat.testBit_ldiff, Nat.testBit_two_pow_sub_succ hlt, Nat.testBit_two_pow_sub_one,
          Nat.testBit_mod_two_pow]
        cases decide (bit < width) <;> simp
      change ((Nat.ldiff (2 ^ width - 1) n : ℕ) : ℤ) = _
      rw [hldiff, Int.negSucc_emod n (by positivity)]
      push_cast [Nat.cast_sub hlt]
      ring

theorem lor_zero (m : ℤ) : Int.lor m 0 = m := by
  cases m with
  | ofNat m => exact congrArg Int.ofNat (Nat.or_zero m)
  | negSucc m =>
      have hldiff : Nat.ldiff m 0 = m := by
        apply Nat.eq_of_testBit_eq
        intro bit
        rw [Nat.testBit_ldiff, Nat.zero_testBit, Bool.not_false, Bool.and_true]
      exact congrArg Int.negSucc hldiff

/-- The higher bits of a negative number are set. -/
theorem le_lor_of_neg {n : ℤ} (m : ℤ) (h : n < 0) :
    n ≤ Int.lor m n := by
  cases n with
  | ofNat n => exact absurd h (by simp)
  | negSucc n =>
      cases m with
      | ofNat m =>
          have hle : Nat.ldiff n m ≤ n := by
            apply Nat.le_of_testBit
            intro bit hbit
            rw [Nat.testBit_ldiff, Bool.and_eq_true] at hbit
            exact hbit.1
          change Int.negSucc n ≤ Int.negSucc (Nat.ldiff n m)
          omega
      | negSucc m =>
          have hle : m &&& n ≤ n := Nat.and_le_right
          change Int.negSucc n ≤ Int.negSucc (m &&& n)
          omega

theorem lor_of_neg {m n : ℤ} (h : m < 0) (hn : 0 ≤ n) :
    Int.lor m n < 0 := by
  obtain ⟨n, rfl⟩ := Int.eq_ofNat_of_zero_le hn
  cases m with
  | ofNat m => exact absurd h (by simp)
  | negSucc m => exact Int.negSucc_lt_zero _

end Foundation

namespace Miningcore.Beam

open Foundation

/-- A packed difficulty in full. -/
def unpackedDifficulty (packedDifficulty : ℤ) : ℚ :=
  let leadingBit : ℤ := 1 <<< (24 : ℕ)
  let order := packedDifficulty >>> (24 : ℕ)
  let result := (Int.lor leadingBit (Int.land packedDifficulty (leadingBit - 1)) : ℚ) *
    2 ^ (order - 24)
  |result|

/-- The mantissa without its leading bit, cut to a whole number. -/
def mantissa (unpackedDifficulty : ℚ) (correctedOrder : ℤ) : ℤ :=
  let scaled := unpackedDifficulty * 2 ^ (-correctedOrder) - 2 ^ 24
  if 0 ≤ scaled then ⌊scaled⌋ else ⌈scaled⌉

/-- `PackedDifficulty`, which fails when the rounded difficulty is no 32-bit number. -/
def packedDifficulty (unpackedDifficulty : ℚ) : Option ℤ :=
  let rounded := roundHalfEven unpackedDifficulty
  if 0 ≤ rounded ∧ rounded < 2 ^ 32 then
    let bits : ℤ := Nat.size rounded.toNat
    let correctedOrder := bits - 24 - 1
    let order := 24 + correctedOrder
    some (Int.lor (mantissa unpackedDifficulty correctedOrder) (order <<< (24 : ℕ)))
  else none

section unpacked

variable {packed : ℤ}

theorem unpackedDifficulty_eq (packed : ℤ) :
    unpackedDifficulty packed =
      (2 ^ 24 + (packed % 2 ^ 24 : ℤ)) * 2 ^ (packed / 2 ^ 24 - 24) := by
  have hlow := Int.emod_nonneg packed (show (2 ^ 24 : ℤ) ≠ 0 by decide)
  have hhigh := Int.emod_lt_of_pos packed (show (0 : ℤ) < 2 ^ 24 by decide)
  have hland : Int.land packed (1 <<< (24 : ℕ) - 1) = packed % 2 ^ 24 :=
    land_two_pow_sub_one packed 24
  have hlor : Int.lor (1 <<< (24 : ℕ)) (packed % 2 ^ 24) = 2 ^ 24 + packed % 2 ^ 24 := by
    obtain ⟨low, hlow⟩ := Int.eq_ofNat_of_zero_le hlow
    rw [hlow] at hhigh ⊢
    have hor : 2 ^ 24 * 1 + low = 2 ^ 24 * 1 ||| low :=
      Nat.two_pow_add_eq_or_of_lt (by exact_mod_cast hhigh) 1
    change ((2 ^ 24 ||| low : ℕ) : ℤ) = _
    rw [mul_one] at hor
    rw [← hor]
    rfl
  simp only [unpackedDifficulty]
  rw [hland, hlor, Int.shiftRight_eq_div_pow, abs_of_nonneg]
  · push_cast
    rfl
  · have hnonneg : (0 : ℚ) ≤ (2 ^ 24 + packed % 2 ^ 24 : ℤ) := by exact_mod_cast (by omega)
    positivity

theorem le_unpackedDifficulty (packed : ℤ) :
    (2 : ℚ) ^ (packed / 2 ^ 24) ≤ unpackedDifficulty packed := by
  have hlow := Int.emod_nonneg packed (show (2 ^ 24 : ℤ) ≠ 0 by decide)
  have hcast : (0 : ℚ) ≤ (packed % 2 ^ 24 : ℤ) := by exact_mod_cast hlow
  rw [unpackedDifficulty_eq]
  calc (2 : ℚ) ^ (packed / 2 ^ 24) = 2 ^ 24 * 2 ^ (packed / 2 ^ 24 - 24) := by
        rw [← zpow_natCast, ← zpow_add₀ two_ne_zero]
        congr 1
        push_cast
        ring
    _ ≤ (2 ^ 24 + ((packed % 2 ^ 24 : ℤ) : ℚ)) * 2 ^ (packed / 2 ^ 24 - 24) :=
        mul_le_mul_of_nonneg_right (by linarith) (by positivity)

theorem unpackedDifficulty_lt (packed : ℤ) :
    unpackedDifficulty packed < 2 ^ (packed / 2 ^ 24 + 1) := by
  have hhigh := Int.emod_lt_of_pos packed (show (0 : ℤ) < 2 ^ 24 by decide)
  have hcast : ((packed % 2 ^ 24 : ℤ) : ℚ) < 2 ^ 24 := by exact_mod_cast hhigh
  rw [unpackedDifficulty_eq]
  calc (2 ^ 24 + ((packed % 2 ^ 24 : ℤ) : ℚ)) * 2 ^ (packed / 2 ^ 24 - 24)
      < 2 ^ 25 * 2 ^ (packed / 2 ^ 24 - 24) :=
        mul_lt_mul_of_pos_right (by linarith) (by positivity)
    _ = 2 ^ (packed / 2 ^ 24 + 1) := by
        rw [← zpow_natCast, ← zpow_add₀ two_ne_zero]
        congr 1
        push_cast
        ring

/-- A negative packed difficulty is one below 1. -/
theorem unpackedDifficulty_lt_one (h : packed < 0) : unpackedDifficulty packed < 1 := by
  calc unpackedDifficulty packed < 2 ^ (packed / 2 ^ 24 + 1) := unpackedDifficulty_lt packed
    _ ≤ 2 ^ (0 : ℤ) := zpow_le_zpow_right₀ one_le_two (by omega)
    _ = 1 := zpow_zero 2

end unpacked

section packed

variable {d : ℚ} {k : ℕ}

/-- The rounded difficulty is a number of 32 bits, the highest of which gives the order. -/
theorem packedDifficulty_of_round (hk : k < 32) (hle : 2 ^ k ≤ roundHalfEven d)
    (hlt : roundHalfEven d < 2 ^ (k + 1)) :
    packedDifficulty d = some (Int.lor (mantissa d (k - 24)) ((k : ℤ) <<< (24 : ℕ))) := by
  obtain ⟨rounded, hrounded⟩ := Int.eq_ofNat_of_zero_le (le_trans (by positivity) hle)
  rw [hrounded] at hle hlt
  have hle : 2 ^ k ≤ rounded := by exact_mod_cast hle
  have hlt : rounded < 2 ^ (k + 1) := by exact_mod_cast hlt
  have hsize : Nat.size rounded = k + 1 :=
    le_antisymm (Nat.size_le.mpr hlt) (Nat.lt_size.mpr hle)
  have hfits : rounded < 2 ^ 32 := hlt.trans_le (Nat.pow_le_pow_right two_pos hk)
  simp only [packedDifficulty]
  rw [hrounded, if_pos ⟨by positivity, by exact_mod_cast hfits⟩, Int.toNat_natCast, hsize]
  have hcorrected : ((k + 1 : ℕ) : ℤ) - 24 - 1 = k - 24 := by
    push_cast
    ring
  rw [hcorrected, add_sub_cancel]

/-- Rounding stays below the next power of two. -/
theorem round_bounds (hle : 2 ^ k ≤ d) (hlt : d < 2 ^ (k + 1) - 1 / 2) :
    2 ^ k ≤ roundHalfEven d ∧ roundHalfEven d < 2 ^ (k + 1) := by
  constructor
  · have hfloor : 2 ^ k ≤ ⌊d⌋ := Int.le_floor.mpr (by exact_mod_cast hle)
    rw [roundHalfEven_eq]
    split <;> omega
  · have heven : Even (2 ^ (k + 1) : ℤ) := even_two.pow_of_ne_zero (by omega)
    apply (roundHalfEven_lt_iff heven d).mpr
    push_cast
    exact hlt

theorem mantissa_of_le (hle : 2 ^ k ≤ d) :
    mantissa d (k - 24) = ⌊d * 2 ^ (24 - k : ℤ)⌋ - 2 ^ 24 := by
  have hscaled : 2 ^ 24 ≤ d * 2 ^ (24 - k : ℤ) := by
    calc (2 : ℚ) ^ 24 = 2 ^ k * 2 ^ (24 - k : ℤ) := by
          rw [← zpow_natCast, ← zpow_natCast, ← zpow_add₀ two_ne_zero, add_sub_cancel]
          rfl
      _ ≤ d * 2 ^ (24 - k : ℤ) := mul_le_mul_of_nonneg_right hle (by positivity)
  simp only [mantissa, neg_sub]
  rw [if_pos (sub_nonneg.mpr hscaled)]
  rw [← Int.floor_sub_intCast]
  push_cast
  rfl

theorem mantissa_of_lt (hlt : d < 2 ^ k) :
    mantissa d (k - 24) = ⌈d * 2 ^ (24 - k : ℤ) - 2 ^ 24⌉ ∧ mantissa d (k - 24) ≤ 0 := by
  have hscaled : d * 2 ^ (24 - k : ℤ) < 2 ^ 24 := by
    calc d * 2 ^ (24 - k : ℤ) < 2 ^ k * 2 ^ (24 - k : ℤ) :=
          mul_lt_mul_of_pos_right hlt (by positivity)
      _ = 2 ^ 24 := by
          rw [← zpow_natCast, ← zpow_natCast, ← zpow_add₀ two_ne_zero, add_sub_cancel]
          rfl
  have heq : mantissa d (k - 24) = ⌈d * 2 ^ (24 - k : ℤ) - 2 ^ 24⌉ := by
    simp only [mantissa, neg_sub]
    exact if_neg (not_le.mpr (sub_neg.mpr hscaled))
  refine ⟨heq, ?_⟩
  rw [heq]
  exact Int.ceil_le.mpr (by push_cast; linarith)

theorem lor_shift {low : ℤ} (hlow : 0 ≤ low) (hhigh : low < 2 ^ 24) :
    Int.lor low ((k : ℤ) <<< (24 : ℕ)) = low + k * 2 ^ 24 := by
  obtain ⟨low, rfl⟩ := Int.eq_ofNat_of_zero_le hlow
  have hor : 2 ^ 24 * k + low = 2 ^ 24 * k ||| low :=
    Nat.two_pow_add_eq_or_of_lt (by exact_mod_cast hhigh) k
  rw [Int.shiftLeft_eq]
  change ((low ||| k * 2 ^ 24 : ℕ) : ℤ) = _
  rw [Nat.lor_comm, mul_comm k, ← hor]
  push_cast
  ring

theorem pow_mul_zpow (n k : ℕ) : (2 : ℚ) ^ n * 2 ^ (24 - k : ℤ) = 2 ^ (n + 24 - k : ℤ) := by
  rw [← zpow_natCast, ← zpow_add₀ two_ne_zero, add_sub_assoc]

/-- The mantissa with its leading bit. -/
theorem floor_bounds (hle : 2 ^ k ≤ d) (hlt : d < 2 ^ (k + 1)) :
    2 ^ 24 ≤ ⌊d * 2 ^ (24 - k : ℤ)⌋ ∧ ⌊d * 2 ^ (24 - k : ℤ)⌋ < 2 ^ 25 := by
  constructor
  · apply Int.le_floor.mpr
    calc ((2 ^ 24 : ℤ) : ℚ) = 2 ^ (k + 24 - k : ℤ) := by norm_num
      _ = 2 ^ k * 2 ^ (24 - k : ℤ) := (pow_mul_zpow k k).symm
      _ ≤ d * 2 ^ (24 - k : ℤ) := mul_le_mul_of_nonneg_right hle (by positivity)
  · apply Int.floor_lt.mpr
    calc d * 2 ^ (24 - k : ℤ) < 2 ^ (k + 1) * 2 ^ (24 - k : ℤ) :=
          mul_lt_mul_of_pos_right hlt (by positivity)
      _ = 2 ^ ((k + 1 : ℕ) + 24 - k : ℤ) := pow_mul_zpow (k + 1) k
      _ = ((2 ^ 25 : ℤ) : ℚ) := by
          rw [show ((k + 1 : ℕ) + 24 - k : ℤ) = 25 by push_cast; ring]
          norm_num

/-- The mantissa of a difficulty that keeps its order. -/
theorem packedDifficulty_of_lt (hk : k < 32) (hle : 2 ^ k ≤ d)
    (hlt : d < 2 ^ (k + 1) - 1 / 2) :
    packedDifficulty d = some (⌊d * 2 ^ (24 - k : ℤ)⌋ - 2 ^ 24 + k * 2 ^ 24) := by
  obtain ⟨hlow, hhigh⟩ := round_bounds hle hlt
  obtain ⟨hmin, hmax⟩ := floor_bounds hle (by linarith)
  rw [packedDifficulty_of_round hk hlow hhigh, mantissa_of_le hle,
    lor_shift (by omega) (by omega)]

/-- The mantissa is taken out again with its order. -/
theorem unpackedDifficulty_of_floor (hle : 2 ^ k ≤ d) (hlt : d < 2 ^ (k + 1)) :
    unpackedDifficulty (⌊d * 2 ^ (24 - k : ℤ)⌋ - 2 ^ 24 + k * 2 ^ 24) =
      ⌊d * 2 ^ (24 - k : ℤ)⌋ * 2 ^ (k - 24 : ℤ) := by
  obtain ⟨hmin, hmax⟩ := floor_bounds hle hlt
  generalize ⌊d * 2 ^ (24 - k : ℤ)⌋ = scaled at hmin hmax ⊢
  have horder : (scaled - 2 ^ 24 + k * 2 ^ 24) / 2 ^ 24 = (k : ℤ) := by omega
  have hlow : (scaled - 2 ^ 24 + k * 2 ^ 24) % 2 ^ 24 = scaled - 2 ^ 24 := by omega
  rw [unpackedDifficulty_eq, horder, hlow]
  push_cast
  ring

/-- Cutting the mantissa takes at most a 24-bit fraction of the difficulty. -/
theorem unpackedDifficulty_error (hle : 2 ^ k ≤ d) (hlt : d < 2 ^ (k + 1)) :
    unpackedDifficulty (⌊d * 2 ^ (24 - k : ℤ)⌋ - 2 ^ 24 + k * 2 ^ 24) ≤ d ∧
      d - unpackedDifficulty (⌊d * 2 ^ (24 - k : ℤ)⌋ - 2 ^ 24 + k * 2 ^ 24) ≤ d / 2 ^ 24 := by
  have hinverse : (2 : ℚ) ^ (24 - k : ℤ) * 2 ^ (k - 24 : ℤ) = 1 := by
    rw [← zpow_add₀ two_ne_zero, sub_add_sub_cancel, sub_self, zpow_zero]
  have hunit : (0 : ℚ) < 2 ^ (k - 24 : ℤ) := by positivity
  have hd : d = d * 2 ^ (24 - k : ℤ) * 2 ^ (k - 24 : ℤ) := by rw [mul_assoc, hinverse, mul_one]
  rw [unpackedDifficulty_of_floor hle hlt]
  constructor
  · calc (⌊d * 2 ^ (24 - k : ℤ)⌋ : ℚ) * 2 ^ (k - 24 : ℤ)
        ≤ d * 2 ^ (24 - k : ℤ) * 2 ^ (k - 24 : ℤ) :=
          mul_le_mul_of_nonneg_right (Int.floor_le _) hunit.le
      _ = d := hd.symm
  · have hcut : d - ⌊d * 2 ^ (24 - k : ℤ)⌋ * 2 ^ (k - 24 : ℤ) ≤ 2 ^ (k - 24 : ℤ) := by
      calc d - ⌊d * 2 ^ (24 - k : ℤ)⌋ * 2 ^ (k - 24 : ℤ)
          = (d * 2 ^ (24 - k : ℤ) - ⌊d * 2 ^ (24 - k : ℤ)⌋) * 2 ^ (k - 24 : ℤ) := by
            rw [sub_mul, ← hd]
        _ ≤ 1 * 2 ^ (k - 24 : ℤ) :=
            mul_le_mul_of_nonneg_right (by linarith [Int.lt_floor_add_one (d * 2 ^ (24 - k : ℤ))])
              hunit.le
        _ = 2 ^ (k - 24 : ℤ) := one_mul _
    have hpow : (2 : ℚ) ^ (k - 24 : ℤ) = 2 ^ k / 2 ^ 24 := by
      rw [zpow_sub₀ two_ne_zero, zpow_natCast]
      rfl
    calc d - ⌊d * 2 ^ (24 - k : ℤ)⌋ * 2 ^ (k - 24 : ℤ) ≤ 2 ^ (k - 24 : ℤ) := hcut
      _ = 2 ^ k / 2 ^ 24 := hpow
      _ ≤ d / 2 ^ 24 := div_le_div_of_nonneg_right hle (by positivity)

theorem packedDifficulty_of_large (h : 2 ^ 32 - 1 / 2 ≤ d) : packedDifficulty d = none := by
  have hlarge := mt (roundHalfEven_lt_iff (n := 2 ^ 32) (by decide) d).mp (by
    push_cast
    exact not_lt.mpr h)
  exact if_neg fun hfits => hlarge hfits.2

/-- Where rounding reaches the next power of two, the mantissa is lost or negative. -/
theorem packedDifficulty_of_ge {packed : ℤ} (hk : k ≠ 0) (hle : 2 ^ k - 1 / 2 ≤ d)
    (hlt : d < 2 ^ k) (hpacked : packedDifficulty d = some packed) :
    packed = k * 2 ^ 24 ∨ packed < 0 := by
  have hlow : 2 ^ k ≤ roundHalfEven d := by
    have heven : Even (2 ^ k : ℤ) := even_two.pow_of_ne_zero hk
    have hnot := mt (roundHalfEven_lt_iff heven d).mp (by
      push_cast
      exact not_lt.mpr hle)
    exact not_lt.mp hnot
  have hhigh : roundHalfEven d < 2 ^ (k + 1) := by
    have heven : Even (2 ^ (k + 1) : ℤ) := even_two.pow_of_ne_zero (by omega)
    have hone : (1 : ℚ) ≤ 2 ^ k := one_le_pow₀ one_le_two
    apply (roundHalfEven_lt_iff heven d).mpr
    push_cast
    rw [pow_succ]
    linarith
  have hbits : k < 32 := by
    by_contra hlarge
    have hpow : (2 : ℚ) ^ 32 ≤ 2 ^ k := pow_le_pow_right₀ one_le_two (not_lt.mp hlarge)
    rw [packedDifficulty_of_large (by linarith)] at hpacked
    cases hpacked
  obtain ⟨-, hnonpos⟩ := mantissa_of_lt hlt
  rw [packedDifficulty_of_round hbits hlow hhigh] at hpacked
  cases hpacked
  obtain hneg | hzero := hnonpos.lt_or_eq
  · exact Or.inr (lor_of_neg hneg (by rw [Int.shiftLeft_eq]; positivity))
  · rw [hzero, lor_shift le_rfl (by positivity), zero_add]
    exact Or.inl rfl

end packed

/-! ## What is unpacked again -/

section agreement

variable {d : ℚ}

/-- A difficulty that rounding keeps below the next power of two, and in 32 bits. -/
def KeepsOrder (d : ℚ) : Prop := d < 2 ^ 32 - 1 / 2 ∧ ∀ k : ℕ, d < 2 ^ k → d < 2 ^ k - 1 / 2

/-- A packed difficulty is at most the difficulty and close to it, and none of a lower
difficulty is above it. -/
def Packs (d : ℚ) : Prop :=
  ∃ packed, packedDifficulty d = some packed ∧ unpackedDifficulty packed ≤ d ∧
    d - unpackedDifficulty packed ≤ d / 2 ^ 24 ∧
    ∀ lower, 1 ≤ lower → lower ≤ d →
      ∃ packed' ≤ packed, packedDifficulty lower = some packed'

theorem KeepsOrder.packed {k : ℕ} (h : KeepsOrder d) (hle : 2 ^ k ≤ d) (hlt : d < 2 ^ (k + 1)) :
    k < 32 ∧ packedDifficulty d = some (⌊d * 2 ^ (24 - k : ℤ)⌋ - 2 ^ 24 + k * 2 ^ 24) := by
  have hk : k < 32 := by
    by_contra hlarge
    have hpow : (2 : ℚ) ^ 32 ≤ 2 ^ k := pow_le_pow_right₀ one_le_two (not_lt.mp hlarge)
    linarith [h.1]
  exact ⟨hk, packedDifficulty_of_lt hk hle (h.2 (k + 1) hlt)⟩

theorem exists_packed (h : 0 ≤ d) (hlt : d < 2 ^ 32 - 1 / 2) :
    ∃ packed, packedDifficulty d = some packed := by
  have hround : 0 ≤ roundHalfEven d := by
    rw [roundHalfEven_nonneg_iff]
    linarith
  have hfits : roundHalfEven d < 2 ^ 32 := by
    apply (roundHalfEven_lt_iff (n := 2 ^ 32) (by decide) d).mpr
    push_cast
    exact hlt
  exact ⟨_, if_pos ⟨hround, hfits⟩⟩

/-- A lower difficulty has a lower order or, with the same order, at most the mantissa. -/
theorem KeepsOrder.exists_le {lower : ℚ} {k : ℕ} (h : KeepsOrder d) (hle : 2 ^ k ≤ d)
    (hlt : d < 2 ^ (k + 1)) (hone : 1 ≤ lower) (hlower : lower ≤ d) :
    ∃ packed ≤ ⌊d * 2 ^ (24 - k : ℤ)⌋ - 2 ^ 24 + k * 2 ^ 24,
      packedDifficulty lower = some packed := by
  obtain ⟨order, hmin, hmax⟩ := exists_nat_pow_near hone one_lt_two
  obtain ⟨hk, -⟩ := h.packed hle hlt
  obtain ⟨hfloor, -⟩ := floor_bounds hle hlt
  have horder : order ≤ k := by
    have hpow : (2 : ℚ) ^ order < 2 ^ (k + 1) := by linarith
    exact Nat.lt_succ_iff.mp ((pow_lt_pow_iff_right₀ one_lt_two).mp hpow)
  obtain hkeeps | hreaches := lt_or_ge lower (2 ^ (order + 1) - 1 / 2)
  · refine ⟨_, ?_, packedDifficulty_of_lt (by omega) hmin hkeeps⟩
    obtain ⟨-, hbelow⟩ := floor_bounds hmin hmax
    obtain rfl | hless := horder.eq_or_lt
    · have hmono : ⌊lower * 2 ^ (24 - order : ℤ)⌋ ≤ ⌊d * 2 ^ (24 - order : ℤ)⌋ :=
        Int.floor_le_floor (mul_le_mul_of_nonneg_right hlower (by positivity))
      omega
    · omega
  · have hless : order < k := by
      refine horder.lt_of_ne ?_
      rintro rfl
      linarith [h.2 (order + 1) hlt]
    obtain ⟨packed, hpacked⟩ := exists_packed (by linarith) (hlower.trans_lt h.1)
    refine ⟨packed, ?_, hpacked⟩
    obtain rfl | hneg := packedDifficulty_of_ge order.succ_ne_zero hreaches hmax hpacked
    · push_cast
      omega
    · omega

theorem KeepsOrder.packs (hone : 1 ≤ d) (h : KeepsOrder d) : Packs d := by
  obtain ⟨k, hle, hlt⟩ := exists_nat_pow_near hone one_lt_two
  obtain ⟨-, hpacked⟩ := h.packed hle hlt
  obtain ⟨hbelow, herror⟩ := unpackedDifficulty_error hle hlt
  exact ⟨_, hpacked, hbelow, herror, fun _ hlower hle' => h.exists_le hle hlt hlower hle'⟩

/-- Only a difficulty that keeps its order has a packed one that is not above it, unless the
latter is negative. -/
theorem keepsOrder_of_packed {packed : ℤ} (hone : 1 ≤ d)
    (hpacked : packedDifficulty d = some packed) (hle : unpackedDifficulty packed ≤ d)
    (hneg : packed < 0 → d < 3 / 2) : KeepsOrder d := by
  constructor
  · by_contra hlarge
    rw [packedDifficulty_of_large (not_lt.mp hlarge)] at hpacked
    cases hpacked
  · intro k hlt
    by_contra hreaches
    rw [not_lt] at hreaches
    obtain ⟨k, rfl⟩ : ∃ k', k = k' + 1 := by
      apply Nat.exists_eq_succ_of_ne_zero
      rintro rfl
      linarith
    obtain rfl | hbelow := packedDifficulty_of_ge k.succ_ne_zero hreaches hlt hpacked
    · have hpow := le_unpackedDifficulty ((k + 1 : ℕ) * 2 ^ 24)
      rw [Int.mul_ediv_cancel _ (by positivity), zpow_natCast] at hpow
      linarith
    · have hpow : (2 : ℚ) ≤ 2 ^ (k + 1) := by
        rw [pow_succ]
        linarith [one_le_pow₀ (one_le_two (α := ℚ)) (n := k)]
      linarith [hneg hbelow]

theorem packs_iff (hone : 1 ≤ d) : Packs d ↔ KeepsOrder d := by
  constructor
  · rintro ⟨packed, hpacked, hle, herror, -⟩
    refine keepsOrder_of_packed hone hpacked hle fun hneg => ?_
    have hless := unpackedDifficulty_lt_one hneg
    linarith
  · exact KeepsOrder.packs hone

theorem packedDifficulty_unpacked {packed : ℤ} (hnonneg : 0 ≤ packed)
    (h : KeepsOrder (unpackedDifficulty packed)) :
    packedDifficulty (unpackedDifficulty packed) = some packed := by
  have hle := le_unpackedDifficulty packed
  have hlt := unpackedDifficulty_lt packed
  obtain ⟨order, horder⟩ := Int.eq_ofNat_of_zero_le
    (show 0 ≤ packed / 2 ^ 24 by omega)
  rw [horder, zpow_natCast] at hle
  rw [horder, ← Nat.cast_succ, zpow_natCast] at hlt
  obtain ⟨-, hpacked⟩ := h.packed hle hlt
  have hscaled : unpackedDifficulty packed * 2 ^ (24 - order : ℤ) =
      (2 ^ 24 + packed % 2 ^ 24 : ℤ) := by
    rw [unpackedDifficulty_eq, horder, mul_assoc, ← zpow_add₀ two_ne_zero, sub_add_sub_cancel,
      sub_self, zpow_zero, mul_one]
    push_cast
    rfl
  rw [hpacked, hscaled, Int.floor_intCast]
  congr 1
  omega

theorem round_eq_of_lt_one (hpos : 0 < d) (hlt : d < 1) :
    roundHalfEven d = if 1 / 2 < d then 1 else 0 := by
  have hfloor : ⌊d⌋ = 0 := Int.floor_eq_zero_iff.mpr ⟨hpos.le, hlt⟩
  have hfract : Int.fract d = d := Int.fract_eq_self.mpr ⟨hpos.le, hlt⟩
  have hup : RoundsUp d ↔ 1 / 2 < d := by
    rw [RoundsUp, hfloor, hfract, or_iff_left]
    exact fun h => absurd h.2 (by decide)
  rw [roundHalfEven_eq, hfloor, zero_add]
  simp only [hup]

theorem packedDifficulty_of_lt_one (hpos : 0 < d) (hlt : d < 1) :
    packedDifficulty d = some (if 1 / 2 < d then ⌈d * 2 ^ 24 - 2 ^ 24⌉
      else Int.lor (mantissa d (-25)) (-2 ^ 24)) := by
  have hround := round_eq_of_lt_one hpos hlt
  split_ifs at hround ⊢ with hhalf
  · obtain ⟨hmantissa, hnonpos⟩ := mantissa_of_lt (k := 0) (by rwa [pow_zero])
    rw [packedDifficulty_of_round (k := 0) (by decide) hround.ge (hround.trans_lt (by decide)),
      show Int.lor (mantissa d ((0 : ℕ) - 24)) (((0 : ℕ) : ℤ) <<< (24 : ℕ)) =
        mantissa d ((0 : ℕ) - 24) from lor_zero _, hmantissa]
    norm_num
  · simp only [packedDifficulty, hround]
    rfl

/-- A negative packed difficulty is not found again, unless it is the least with its order. -/
theorem eq_of_packed_unpacked {packed : ℤ} (hneg : packed < 0)
    (h : packedDifficulty (unpackedDifficulty packed) = some packed) : packed = -2 ^ 24 := by
  have hpos : 0 < unpackedDifficulty packed :=
    lt_of_lt_of_le (by positivity) (le_unpackedDifficulty packed)
  rw [packedDifficulty_of_lt_one hpos (unpackedDifficulty_lt_one hneg), Option.some.injEq] at h
  by_contra hne
  have hmin : -2 ^ 24 ≤ packed := by
    split_ifs at h
    · rw [← h]
      exact Int.le_ceil_iff.mpr (by push_cast; linarith)
    · rw [← h]
      exact le_lor_of_neg _ (by decide)
  have hvalue : unpackedDifficulty packed = 1 + packed / 2 ^ 25 := by
    rw [unpackedDifficulty_eq, show packed / 2 ^ 24 = -1 by omega,
      show packed % 2 ^ 24 = packed + 2 ^ 24 by omega]
    norm_num
    ring
  have hgreater : (-2 ^ 24 + 1 : ℚ) ≤ packed := by
    exact_mod_cast (by omega : -2 ^ 24 + 1 ≤ packed)
  have hless : (packed : ℚ) < 0 := by exact_mod_cast hneg
  rw [if_pos (by rw [hvalue]; linarith), hvalue] at h
  -- the mantissa would be half of itself
  have hceil := Int.le_ceil ((1 + (packed : ℚ) / 2 ^ 25) * 2 ^ 24 - 2 ^ 24)
  rw [h] at hceil
  linarith

/-- A difficulty from 1 on is packed as it has to be just if rounding keeps its order, and a
packed one is found again on the same condition. -/
theorem packs_iff_keepsOrder (d : ℚ) (packed : ℤ) :
    (1 ≤ d → (Packs d ↔ KeepsOrder d)) ∧
    (packedDifficulty (unpackedDifficulty packed) = some packed ↔
      packed = -2 ^ 24 ∨ 0 ≤ packed ∧ KeepsOrder (unpackedDifficulty packed)) := by
  constructor
  · exact packs_iff
  constructor
  · intro h
    obtain hneg | hnonneg := lt_or_ge packed 0
    · exact Or.inl (eq_of_packed_unpacked hneg h)
    · have hone : 1 ≤ unpackedDifficulty packed := by
        calc (1 : ℚ) ≤ 2 ^ (packed / 2 ^ 24) := one_le_zpow₀ one_le_two (by omega)
          _ ≤ unpackedDifficulty packed := le_unpackedDifficulty packed
      exact Or.inr ⟨hnonneg, keepsOrder_of_packed hone h le_rfl fun hneg =>
        absurd hneg (not_lt.mpr hnonneg)⟩
  · rintro (rfl | ⟨hnonneg, hkeeps⟩)
    · decide +kernel
    · exact packedDifficulty_unpacked hnonneg hkeeps

/-- Half above 1 is packed as a negative number, the last of 32 bits is not packed, and the last
mantissa of the first order is not found again. -/
theorem not_packs :
    ¬ Packs (3 / 2) ∧ packedDifficulty (2 ^ 32 - 1 / 2) = none ∧
    packedDifficulty (unpackedDifficulty (2 ^ 24 - 1)) ≠ some (2 ^ 24 - 1) := by
  refine ⟨?_, by decide +kernel, by decide +kernel⟩
  rw [packs_iff (by norm_num)]
  intro hkeeps
  exact absurd (hkeeps.2 1 (by norm_num)) (by norm_num)

end agreement

end Miningcore.Beam
