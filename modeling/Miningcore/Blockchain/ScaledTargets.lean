import Mathlib.Data.Nat.Cast.Field
import Mathlib.Data.Nat.Size
import Mathlib.Data.Rat.Floor
import Mathlib.Tactic.Ring
import Miningcore.Foundation.FloatingPoint
import Miningcore.Mining.RetargetCredit

/-!
# Targets of difficulties in 255ths

A target is a quotient by the difficulty in 255ths. Its bytes have room for a sign. They
are put at the end of a buffer of 32 bytes if they are fewer; as many as 32 are not
copied, so a small difficulty has the target zero.

## Implementation notes

Products and quotients of doubles are rounded. A cast to a whole number gives the largest one
for what is above it, as it does for an infinite product, so exponents need no bound.
Difficulties are not negative.
-/

namespace Miningcore

open Foundation Bitcoin

section bytes

variable {n : ℕ}

theorem littleEndian_add (width width' n : ℕ) :
    littleEndian (width + width') n =
      littleEndian width n ++ littleEndian width' (n / 256 ^ width) := by
  induction width generalizing n with
  | zero => rw [Nat.zero_add, pow_zero, Nat.div_one, littleEndian, List.nil_append]
  | succ width ih =>
      rw [Nat.succ_add, littleEndian, littleEndian, ih, Nat.div_div_eq_div_mul, pow_succ',
        List.cons_append]

theorem littleEndian_zero (width : ℕ) : littleEndian width 0 = List.replicate width 0 := by
  induction width with
  | zero => rfl
  | succ width ih =>
      rw [littleEndian, Nat.zero_div, ih]
      rfl

theorem toBigInteger_cons (byte : UInt8) (bytes : Bytes) :
    Progpow.toBigInteger (byte :: bytes) = byte.toNat + 256 * Progpow.toBigInteger bytes := rfl

theorem toBigInteger_append (bytes bytes' : Bytes) :
    Progpow.toBigInteger (bytes ++ bytes') =
      Progpow.toBigInteger bytes + 256 ^ bytes.length * Progpow.toBigInteger bytes' := by
  induction bytes with
  | nil => simp [Progpow.toBigInteger]
  | cons byte bytes ih =>
      rw [List.cons_append, toBigInteger_cons, ih, toBigInteger_cons, List.length_cons]
      ring

theorem toBigInteger_lt (bytes : Bytes) : Progpow.toBigInteger bytes < 256 ^ bytes.length := by
  induction bytes with
  | nil => simp [Progpow.toBigInteger]
  | cons byte bytes ih =>
      rw [toBigInteger_cons, List.length_cons, pow_succ]
      have := byte.toNat_lt
      omega

/-- The bytes of `ToByteArray` of a number that is not negative, the lowest first. -/
def signedBytes (n : ℕ) : Bytes := littleEndian (Nat.size n / 8 + 1) n

theorem length_signedBytes (n : ℕ) : (signedBytes n).length = Nat.size n / 8 + 1 :=
  length_littleEndian _ _

theorem lt_pow_length_signedBytes (n : ℕ) : n < 256 ^ (signedBytes n).length := by
  rw [length_signedBytes]
  calc n < 2 ^ Nat.size n := Nat.lt_size_self n
    _ ≤ 2 ^ (8 * (Nat.size n / 8 + 1)) := Nat.pow_le_pow_right two_pos (by omega)
    _ = 256 ^ (Nat.size n / 8 + 1) := pow_mul 2 8 _

theorem length_signedBytes_lt_iff : (signedBytes n).length < 32 ↔ n < 2 ^ 247 := by
  rw [length_signedBytes, ← Nat.size_le]
  omega

/-- The bytes at the end of 32, of which there have to be more. -/
def padTarget (bytes : Bytes) : Bytes :=
  if bytes.length < 32 then List.replicate (32 - bytes.length) 0 ++ bytes
  else List.replicate 32 0

theorem length_padTarget (bytes : Bytes) : (padTarget bytes).length = 32 := by
  rw [padTarget]
  split
  · rw [List.length_append, List.length_replicate]
    omega
  · exact List.length_replicate

/-- With its highest byte first, a number is at the end of the 32 bytes as it is. -/
theorem padTarget_reverse (n : ℕ) :
    padTarget (signedBytes n).reverse =
      if n < 2 ^ 247 then (littleEndian 32 n).reverse else List.replicate 32 0 := by
  rw [padTarget, List.length_reverse]
  simp only [length_signedBytes_lt_iff]
  split
  · rename_i hlt
    have hlength := length_signedBytes_lt_iff.mpr hlt
    have hsplit := littleEndian_add (signedBytes n).length (32 - (signedBytes n).length) n
    rw [Nat.add_sub_of_le hlength.le, Nat.div_eq_of_lt (lt_pow_length_signedBytes n),
      littleEndian_zero] at hsplit
    rw [hsplit, List.reverse_append, List.reverse_replicate]
    congr 2
    rw [length_signedBytes]
    rfl
  · rfl

end bytes

section quotient

variable {diff n : ℕ} {difficulty : ℚ}

/-- The quotient by a difficulty in 255ths. -/
def scaledQuotient (diff : ℕ) : ℕ := (2 ^ 256 - 1) / diff * 255

def longMax : ℕ := 2 ^ 63 - 1

def ulongMax : ℕ := 2 ^ 64 - 1

/-- The difficulty in 255ths, which is a product of doubles and cast to a whole number that is at
most a largest one. -/
def scaledDifficulty (max : ℕ) (difficulty : ℚ) : ℕ := min ⌊roundDouble (difficulty * 255)⌋₊ max

/-- The whole 255ths of a difficulty. -/
def wholeScaled (difficulty : ℚ) : ℕ := ⌊difficulty * 255⌋₊

example : scaledDifficulty longMax (562954265231617 / 1099511627776) = 130561 ∧
    wholeScaled (562954265231617 / 1099511627776) = 130560 := by decide +kernel

theorem scaledQuotient_lt_iff (hdiff : 0 < diff) :
    scaledQuotient diff < 2 ^ 247 ↔ 130560 ≤ diff := by
  have hdivision := Nat.div_add_mod (2 ^ 256 - 1) diff
  have hrest := Nat.mod_lt (2 ^ 256 - 1) hdiff
  rw [scaledQuotient]
  generalize (2 ^ 256 - 1) / diff = quotient at *
  constructor
  · intro h
    by_contra hsmall
    have hle : diff * quotient ≤ 130559 * quotient := Nat.mul_le_mul_right quotient (by omega)
    omega
  · intro h
    have hle : 130560 * quotient ≤ diff * quotient := Nat.mul_le_mul_right quotient h
    omega

theorem scaledQuotient_antitone {diff diff' : ℕ} (hdiff : 0 < diff) (hle : diff ≤ diff') :
    scaledQuotient diff' ≤ scaledQuotient diff :=
  Nat.mul_le_mul_right 255 (Nat.div_le_div_left hle hdiff)

/-- Different divisors have different quotients as long as they are not above them. -/
theorem scaledQuotient_succ_lt (hdiff : 0 < diff) (hle : diff ≤ 2 ^ 64) :
    scaledQuotient (diff + 1) < scaledQuotient diff := by
  apply Nat.mul_lt_mul_of_pos_right _ (by decide)
  have hlarge : diff ≤ (2 ^ 256 - 1) / (diff + 1) := by
    rw [Nat.le_div_iff_mul_le (Nat.succ_pos diff)]
    exact (Nat.mul_le_mul hle (Nat.succ_le_succ hle)).trans (by norm_num)
  have hproduct := Nat.div_mul_le_self (2 ^ 256 - 1) (diff + 1)
  rw [Nat.lt_iff_add_one_le, Nat.le_div_iff_mul_le hdiff]
  rw [Nat.mul_succ] at hproduct
  rw [Nat.succ_mul]
  omega

theorem scaledQuotient_inj {diff diff' : ℕ} (hdiff : 0 < diff) (hdiff' : 0 < diff')
    (hle : diff ≤ 2 ^ 64) (h : scaledQuotient diff = scaledQuotient diff') : diff = diff' := by
  obtain hlt | heq | hgt := lt_trichotomy diff diff'
  · have hless := scaledQuotient_succ_lt hdiff hle
    have hantitone : scaledQuotient diff' ≤ scaledQuotient (diff + 1) :=
      scaledQuotient_antitone (Nat.succ_pos diff) hlt
    omega
  · exact heq
  · have hless := scaledQuotient_succ_lt hdiff' (hgt.le.trans hle)
    have hantitone : scaledQuotient diff ≤ scaledQuotient (diff' + 1) :=
      scaledQuotient_antitone (Nat.succ_pos diff') hgt
    omega

theorem scaledDifficulty_le_max (max : ℕ) (difficulty : ℚ) :
    scaledDifficulty max difficulty ≤ max := min_le_right _ _

theorem le_scaledDifficulty_iff {max : ℕ} (hn : 0 < n) (hle : n ≤ max) :
    n ≤ scaledDifficulty max difficulty ↔ (n : ℚ) ≤ roundDouble (difficulty * 255) := by
  rw [scaledDifficulty, le_min_iff, and_iff_left hle, Nat.le_floor_iff' hn.ne']

theorem scaledDifficulty_of_nonpos (max : ℕ) (hdifficulty : difficulty ≤ 0) :
    scaledDifficulty max difficulty = 0 := by
  have hround : roundDouble (difficulty * 255) ≤ 0 := by
    rw [← roundDouble_zero]
    exact roundDouble_mono (by linarith)
  rw [scaledDifficulty, Nat.floor_of_nonpos hround, Nat.zero_min]

theorem le_wholeScaled_iff (hn : 0 < n) :
    n ≤ wholeScaled difficulty ↔ (n : ℚ) ≤ difficulty * 255 := Nat.le_floor_iff' hn.ne'

/-- The difficulties whose targets are short enough to be copied. -/
theorem le_wholeScaled_large_iff : 130560 ≤ wholeScaled difficulty ↔ 512 ≤ difficulty := by
  rw [le_wholeScaled_iff (by norm_num)]
  constructor
  · intro h
    push_cast at h
    linarith
  · intro h
    push_cast
    linarith

/-- The product of a double keeps to the side of 512 that it is on. -/
theorem le_scaledDifficulty_large_iff {max : ℕ} (hmax : 130560 ≤ max) (h : IsDouble difficulty) :
    130560 ≤ scaledDifficulty max difficulty ↔ 512 ≤ difficulty := by
  rw [le_scaledDifficulty_iff (by norm_num) hmax]
  constructor
  · intro hround
    by_contra hsmall
    have hlt : difficulty < 2 ^ (9 : ℤ) := by
      rw [not_le] at hsmall
      exact hsmall.trans_eq (by norm_num)
    have hle := h.le_of_lt hlt
    have hbelow : roundDouble (difficulty * 255) ≤
        roundDouble ((2 ^ (9 : ℤ) - 2 ^ ((9 : ℤ) - 53)) * 255) :=
      roundDouble_mono (by linarith)
    have hlast : roundDouble ((2 ^ (9 : ℤ) - 2 ^ ((9 : ℤ) - 53)) * 255) < 130560 := by
      decide +kernel
    push_cast at hround
    linarith
  · intro hlarge
    rw [← roundDouble_natCast (by norm_num : 130560 ≤ 2 ^ 53)]
    apply roundDouble_mono
    push_cast
    linarith

/-- Rounding keeps whole 255ths up to 53 bits. -/
theorem le_scaledDifficulty_of_le {max : ℕ} (hn : 0 < n) (hbits : n ≤ 2 ^ 53) (hmax : n ≤ max)
    (h : n ≤ wholeScaled difficulty) : n ≤ scaledDifficulty max difficulty := by
  rw [le_scaledDifficulty_iff hn hmax, ← roundDouble_natCast hbits]
  exact roundDouble_mono ((le_wholeScaled_iff hn).mp h)

/-- The product of a double below `2 ^ 32` is below it in 255ths. -/
theorem scaledDifficulty_lt (h : IsDouble difficulty) (hlt : difficulty < 2 ^ 32) :
    scaledDifficulty longMax difficulty < 255 * 2 ^ 32 := by
  by_contra hlarge
  have hround := (le_scaledDifficulty_iff (by norm_num) (by decide)).mp (not_lt.mp hlarge)
  have hlt' : difficulty < 2 ^ (32 : ℤ) := by exact_mod_cast hlt
  have hle := h.le_of_lt hlt'
  have hbelow : roundDouble (difficulty * 255) ≤
      roundDouble ((2 ^ (32 : ℤ) - 2 ^ ((32 : ℤ) - 53)) * 255) :=
    roundDouble_mono (by linarith)
  have hlast : roundDouble ((2 ^ (32 : ℤ) - 2 ^ ((32 : ℤ) - 53)) * 255) < 255 * 2 ^ 32 := by
    decide +kernel
  push_cast at hround
  linarith

/-- A target is at most `2 ^ 256` over the difficulty that is left in 255ths. -/
theorem scaledQuotient_mul_le (diff : ℕ) : scaledQuotient diff * diff ≤ 255 * (2 ^ 256 - 1) := by
  calc scaledQuotient diff * diff = 255 * ((2 ^ 256 - 1) / diff * diff) := by
        rw [scaledQuotient]
        ring
    _ ≤ 255 * (2 ^ 256 - 1) := Nat.mul_le_mul_left 255 (Nat.div_mul_le_self _ _)

theorem scaledQuotient_ne_zero (hdiff : 0 < diff) (hlong : diff ≤ ulongMax) :
    scaledQuotient diff ≠ 0 := by
  have hquotient : 0 < (2 ^ 256 - 1) / diff :=
    Nat.div_pos (hlong.trans (by norm_num [ulongMax])) hdiff
  rw [scaledQuotient]
  omega

theorem wholeScaled_mono : Monotone wholeScaled := fun _ _ hle =>
  Nat.floor_le_floor (mul_le_mul_of_nonneg_right hle (by norm_num))

/-- What is cut off is less than a 255th. -/
theorem lt_wholeScaled_add_one (difficulty : ℚ) :
    difficulty * 255 < wholeScaled difficulty + 1 := Nat.lt_floor_add_one _

/-- What is cut off and lost in rounding is little more than a 255th. -/
theorem lt_scaledDifficulty_add_one {max : ℕ} (hdifficulty : 0 ≤ difficulty)
    (hlt : scaledDifficulty max difficulty < max) :
    difficulty * 255 * (1 - 1 / 2 ^ 53) < scaledDifficulty max difficulty + 1 := by
  have hwhole : scaledDifficulty max difficulty = ⌊roundDouble (difficulty * 255)⌋₊ := by
    rw [scaledDifficulty] at hlt ⊢
    omega
  have hfloor := Nat.lt_floor_add_one (roundDouble (difficulty * 255))
  have hround := (abs_le.mp (abs_roundDouble_sub_le (difficulty * 255))).1
  rw [abs_of_nonneg (by linarith)] at hround
  rw [hwhole]
  linarith

end quotient

section shareDiffs

/-- How whole numbers are made doubles, by cutting or by rounding. -/
structure DoubleConversion where
  toDouble : ℕ → ℚ
  near (n : ℕ) : |toDouble n - n| ≤ n / 2 ^ 52

/-- The nearest double. -/
def DoubleConversion.nearest : DoubleConversion where
  toDouble n := roundDouble n
  near n := by
    have h := abs_roundDouble_sub_le n
    rw [Nat.abs_cast] at h
    exact h.trans (div_le_div_of_nonneg_left (Nat.cast_nonneg n) (by norm_num) (by norm_num))

/-- `BigRational` as a double. -/
def DoubleConversion.bigRational (conversion : DoubleConversion) (numerator denominator : ℕ) : ℚ :=
  let gcd := numerator.gcd denominator
  roundDouble (conversion.toDouble (numerator / gcd) / conversion.toDouble (denominator / gcd))

/-- The ratio of a share-diff and a difficulty is below 0.99. No difficulty has an infinite one. -/
def isLowShare (shareDiff difficulty : ℚ) : Bool :=
  decide (difficulty ≠ 0 ∧ roundDouble (shareDiff / difficulty) < roundDouble Mining.minRatio)

variable {shareDiff difficulty : ℚ}

theorem DoubleConversion.bigRational_bounds (conversion : DoubleConversion) (numerator : ℕ)
    {denominator : ℕ} (hdenominator : 0 < denominator) :
    (numerator : ℚ) / denominator * (1 - 1 / 2 ^ 50) ≤
        conversion.bigRational numerator denominator ∧
      conversion.bigRational numerator denominator ≤
        (numerator : ℚ) / denominator * (1 + 1 / 2 ^ 50) := by
  have hgcd : 0 < numerator.gcd denominator := Nat.gcd_pos_of_pos_right numerator hdenominator
  have hreduced : ((numerator / numerator.gcd denominator : ℕ) : ℚ) /
      (denominator / numerator.gcd denominator : ℕ) = (numerator : ℚ) / denominator := by
    rw [Nat.cast_div (Nat.gcd_dvd_left _ _) (by exact_mod_cast hgcd.ne'),
      Nat.cast_div (Nat.gcd_dvd_right _ _) (by exact_mod_cast hgcd.ne'),
      div_div_div_cancel_right₀ (by exact_mod_cast hgcd.ne')]
  have hpos : (0 : ℚ) < (denominator / numerator.gcd denominator : ℕ) := by
    exact_mod_cast Nat.div_pos (Nat.gcd_le_right _ hdenominator) hgcd
  rw [← hreduced, bigRational]
  generalize numerator / numerator.gcd denominator = a at *
  generalize denominator / numerator.gcd denominator = b at *
  have ha : (0 : ℚ) ≤ a := Nat.cast_nonneg a
  obtain ⟨halow, hahigh⟩ := abs_le.mp (conversion.near a)
  obtain ⟨hblow, hbhigh⟩ := abs_le.mp (conversion.near b)
  have hbpos : 0 < conversion.toDouble b := by linarith
  have hquotient : 0 ≤ (a : ℚ) / b := div_nonneg ha hpos.le
  -- each conversion is off by at most one part in 2 ^ 52
  have hlow : (a : ℚ) / b * ((1 - 1 / 2 ^ 52) / (1 + 1 / 2 ^ 52)) ≤
      conversion.toDouble a / conversion.toDouble b := by
    rw [div_mul_div_comm]
    exact div_le_div₀ (by linarith) (by linarith) hbpos (by linarith)
  have hhigh : conversion.toDouble a / conversion.toDouble b ≤
      (a : ℚ) / b * ((1 + 1 / 2 ^ 52) / (1 - 1 / 2 ^ 52)) := by
    rw [div_mul_div_comm]
    exact div_le_div₀ (by linarith) (by linarith) (by linarith) (by linarith)
  have hnonneg : 0 ≤ conversion.toDouble a / conversion.toDouble b :=
    div_nonneg (by linarith) hbpos.le
  obtain ⟨hroundLow, hroundHigh⟩ := abs_le.mp (abs_roundDouble_sub_le
    (conversion.toDouble a / conversion.toDouble b))
  rw [abs_of_nonneg hnonneg] at hroundLow hroundHigh
  norm_num at hlow hhigh hroundLow hroundHigh ⊢
  constructor <;> linarith

theorem isLowShare_eq_false (hdifficulty : 0 < difficulty)
    (h : Mining.minRatio * difficulty ≤ shareDiff) : isLowShare shareDiff difficulty = false := by
  rw [isLowShare, decide_eq_false_iff_not, not_and, not_lt]
  exact fun _ => roundDouble_mono ((le_div_iff₀ hdifficulty).mpr h)

/-- A share that is not low is low by little more than rounding at most. -/
theorem le_of_isLowShare_eq_false (hdifficulty : 0 < difficulty) (hnonneg : 0 ≤ shareDiff)
    (h : isLowShare shareDiff difficulty = false) :
    Mining.minRatio * difficulty ≤ shareDiff * (1 + 1 / 2 ^ 51) := by
  rw [isLowShare, decide_eq_false_iff_not, not_and, not_lt] at h
  have hround := h hdifficulty.ne'
  have hlow := (abs_le.mp (abs_roundDouble_sub_le Mining.minRatio)).1
  have hhigh := (abs_le.mp (abs_roundDouble_sub_le (shareDiff / difficulty))).2
  rw [abs_of_nonneg (by norm_num [Mining.minRatio])] at hlow
  rw [abs_of_nonneg (div_nonneg hnonneg hdifficulty.le)] at hhigh
  have hratio : Mining.minRatio ≤ shareDiff / difficulty * (1 + 1 / 2 ^ 51) := by
    norm_num [Mining.minRatio] at hlow hhigh hround ⊢
    linarith
  rwa [div_mul_eq_mul_div, le_div_iff₀ hdifficulty] at hratio

end shareDiffs

end Miningcore
