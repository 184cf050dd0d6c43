import Miningcore.Blockchain.ScaledTargets
import Miningcore.Blockchain.Zano.ZanoJob

/-!
# The target of a Zano worker job

A worker job comes with the 32 bytes of a target, the highest first. A target of more than
247 bits is not copied, so a difficulty below 512 is sent as zero. The product of some
difficulties is rounded up to the next 255th. Shares are tested with the share multiplier of
the coin, of which the target knows nothing.

## Implementation notes

The conversion of whole numbers to doubles is a parameter.
-/

namespace Miningcore.Zano

open Foundation Bitcoin Mining

def diff1 : ℕ := 2 ^ 256 - 1

def diff1b : ℕ := 2 ^ 256 - 1

/-- The target of a difficulty. There is none for a difficulty that comes to zero. -/
def encodeTarget (difficulty : ℚ) : Option (List Char) :=
  let diff := scaledDifficulty longMax difficulty
  if diff = 0 then none
  else
    let quotient := diff1 / diff * 255
    some ("0x".toList ++ toHexString (padTarget (signedBytes quotient).reverse))

/-- The share-diff of a header value. -/
def shareDiff (conversion : DoubleConversion) (shareMultiplier : ℚ) (headerValue : ℕ) : ℚ :=
  roundDouble (conversion.bigRational diff1b headerValue * shareMultiplier)

/-- The target of a difficulty in whole 255ths. -/
def wholeTarget (difficulty : ℚ) : ℕ := scaledQuotient (wholeScaled difficulty)

/-- What a miner of a difficulty relies on in the target. -/
structure TargetAgrees (conversion : DoubleConversion) (shareMultiplier difficulty : ℚ) :
    Prop where
  encoded : ∃ bytes : Bytes, bytes.length = 32 ∧ Progpow.toBigInteger bytes.reverse ≠ 0 ∧
    Progpow.toBigInteger bytes.reverse = wholeTarget difficulty ∧
      encodeTarget difficulty = some ("0x".toList ++ toHexString bytes)
  accepted : ∀ headerValue ≤ wholeTarget difficulty, headerValue ≠ 0 →
    isLowShare (shareDiff conversion shareMultiplier headerValue) difficulty = false

/-- The difficulty is large enough for its target to be copied, and neither rounding nor the cast
changes its 255ths. -/
structure KeepsDifficulty (difficulty : ℚ) : Prop where
  large : 512 ≤ difficulty
  scaled_eq : scaledDifficulty longMax difficulty = wholeScaled difficulty

section targets

variable {conversion : DoubleConversion} {shareMultiplier difficulty : ℚ}

theorem encodeTarget_eq (hdiff : 0 < scaledDifficulty longMax difficulty) :
    encodeTarget difficulty = some ("0x".toList ++ toHexString
      (if 130560 ≤ scaledDifficulty longMax difficulty then
        (littleEndian 32 (scaledQuotient (scaledDifficulty longMax difficulty))).reverse
      else List.replicate 32 0)) := by
  simp only [← scaledQuotient_lt_iff hdiff, ← padTarget_reverse]
  exact if_neg hdiff.ne'

theorem toBigInteger_reverse_target {diff : ℕ} (hlarge : 130560 ≤ diff) :
    Progpow.toBigInteger (littleEndian 32 (scaledQuotient diff)).reverse.reverse =
      scaledQuotient diff := by
  rw [List.reverse_reverse]
  apply Progpow.toBigInteger_littleEndian
  exact ((scaledQuotient_lt_iff (by omega)).mpr hlarge).trans (by norm_num)

/-- Bytes that are the target without being zero were copied, from the whole 255ths. -/
theorem TargetAgrees.keepsDifficulty (h : TargetAgrees conversion shareMultiplier difficulty)
    (hdiff : 0 < wholeScaled difficulty) : KeepsDifficulty difficulty := by
  obtain ⟨⟨bytes, -, hne, hvalue, htext⟩, -⟩ := h
  have hpos : 0 < scaledDifficulty longMax difficulty := by
    by_contra hzero
    have hnone : encodeTarget difficulty = none := if_pos (Nat.eq_zero_of_not_pos hzero)
    exact Option.some_ne_none _ (htext.symm.trans hnone)
  rw [encodeTarget_eq hpos, Option.some.injEq, List.append_cancel_left_eq] at htext
  have hbytes := toHexString_injective htext
  by_cases hlarge : 130560 ≤ scaledDifficulty longMax difficulty
  · rw [if_pos hlarge] at hbytes
    rw [← hbytes, toBigInteger_reverse_target hlarge] at hvalue
    have hmax := scaledDifficulty_le_max longMax difficulty
    have hsame := scaledQuotient_inj hpos hdiff (hmax.trans (by decide)) hvalue
    exact ⟨le_wholeScaled_large_iff.mp (hsame ▸ hlarge), hsame⟩
  · rw [if_neg hlarge] at hbytes
    exact absurd (hbytes ▸ by decide) hne

/-- The bytes of a target that is copied are read as its number. -/
theorem KeepsDifficulty.exists_bytes (h : KeepsDifficulty difficulty) :
    ∃ bytes : List UInt8, bytes.length = 32 ∧ Progpow.toBigInteger bytes.reverse ≠ 0 ∧
      Progpow.toBigInteger bytes.reverse = wholeTarget difficulty ∧
        encodeTarget difficulty = some ("0x".toList ++ toHexString bytes) := by
  have hlarge : 130560 ≤ scaledDifficulty longMax difficulty :=
    h.scaled_eq ▸ le_wholeScaled_large_iff.mpr h.large
  have hmax := scaledDifficulty_le_max longMax difficulty
  have hpos : 0 < scaledDifficulty longMax difficulty := by omega
  have hvalue := toBigInteger_reverse_target hlarge
  refine ⟨(littleEndian 32 (scaledQuotient (scaledDifficulty longMax difficulty))).reverse,
    ?_, ?_, ?_, ?_⟩
  · rw [List.length_reverse, length_littleEndian]
  · rw [hvalue]
    exact scaledQuotient_ne_zero hpos (hmax.trans (by decide))
  · rw [hvalue, wholeTarget, h.scaled_eq]
  · rw [encodeTarget_eq hpos, if_pos hlarge]

/-- A target takes less than a hundredth from a difficulty that is copied. -/
theorem wholeTarget_mul_le (hdifficulty : 512 ≤ difficulty) :
    wholeTarget difficulty * difficulty ≤ 130561 / 130560 * (diff1b : ℚ) := by
  have hlarge := le_wholeScaled_large_iff.mpr hdifficulty
  have hscaled : (wholeTarget difficulty : ℚ) * wholeScaled difficulty ≤ 255 * diff1b := by
    exact_mod_cast scaledQuotient_mul_le (wholeScaled difficulty)
  have hlargeCast : (130560 : ℚ) ≤ wholeScaled difficulty := by exact_mod_cast hlarge
  have hcut := lt_wholeScaled_add_one difficulty
  have htarget : (0 : ℚ) ≤ wholeTarget difficulty := Nat.cast_nonneg _
  have hproduct : wholeTarget difficulty * (difficulty * 255) ≤
      130561 / 130560 * (255 * diff1b : ℚ) := by
    calc wholeTarget difficulty * (difficulty * 255)
        ≤ wholeTarget difficulty * (130561 / 130560 * wholeScaled difficulty) :=
          mul_le_mul_of_nonneg_left (by linarith) htarget
      _ = 130561 / 130560 * (wholeTarget difficulty * wholeScaled difficulty) := by ring
      _ ≤ 130561 / 130560 * (255 * diff1b) := mul_le_mul_of_nonneg_left hscaled (by norm_num)
  linarith

/-- The share-diff of a hash is off by rounding only. -/
theorem shareDiff_bounds (conversion : DoubleConversion) (hmultiplier : 0 ≤ shareMultiplier)
    {headerValue : ℕ} (hne : headerValue ≠ 0) :
    (diff1b : ℚ) / headerValue * shareMultiplier * (1 - 1 / 2 ^ 49) ≤
        shareDiff conversion shareMultiplier headerValue ∧
      shareDiff conversion shareMultiplier headerValue ≤
        (diff1b : ℚ) / headerValue * shareMultiplier * (1 + 1 / 2 ^ 49) := by
  obtain ⟨hlow, hhigh⟩ := conversion.bigRational_bounds diff1b (Nat.pos_of_ne_zero hne)
  have hquotient : (0 : ℚ) ≤ (diff1b : ℚ) / headerValue := by positivity
  have hlow' := mul_le_mul_of_nonneg_right hlow hmultiplier
  have hhigh' := mul_le_mul_of_nonneg_right hhigh hmultiplier
  have hexact : 0 ≤ (diff1b : ℚ) / headerValue * shareMultiplier :=
    mul_nonneg hquotient hmultiplier
  have hnonneg : 0 ≤ conversion.bigRational diff1b headerValue * shareMultiplier := by
    refine le_trans ?_ hlow'
    norm_num
    nlinarith
  obtain ⟨hroundLow, hroundHigh⟩ := abs_le.mp
    (abs_roundDouble_sub_le (conversion.bigRational diff1b headerValue * shareMultiplier))
  rw [abs_of_nonneg hnonneg] at hroundLow hroundHigh
  rw [shareDiff]
  generalize (diff1b : ℚ) / headerValue = quotient at *
  norm_num at hlow' hhigh' hroundLow hroundHigh ⊢
  constructor <;> linarith

/-- The hashes up to a target pass if the target does with room for rounding. -/
theorem accepted_of_le (hdifficulty : 0 < difficulty) (hmultiplier : 0 ≤ shareMultiplier)
    {target : ℕ} (h : minRatio * (target * difficulty) * (1 + 1 / 2 ^ 48) ≤
      diff1b * shareMultiplier) :
    ∀ headerValue ≤ target, headerValue ≠ 0 →
      isLowShare (shareDiff conversion shareMultiplier headerValue) difficulty = false := by
  intro headerValue hle hne
  have hpos : (0 : ℚ) < headerValue := Nat.cast_pos.mpr (Nat.pos_of_ne_zero hne)
  refine isLowShare_eq_false hdifficulty
    (le_trans ?_ (shareDiff_bounds conversion hmultiplier hne).1)
  have hcast : (headerValue : ℚ) ≤ target := Nat.cast_le.mpr hle
  have hproduct : (headerValue : ℚ) * difficulty ≤ target * difficulty :=
    mul_le_mul_of_nonneg_right hcast hdifficulty.le
  have hnonneg : 0 ≤ (headerValue : ℚ) * difficulty := by positivity
  rw [div_mul_eq_mul_div, div_mul_eq_mul_div, le_div_iff₀ hpos]
  generalize (diff1b : ℚ) * shareMultiplier = product at *
  norm_num [minRatio] at h ⊢
  linarith

/-- A target that passes is not above the exact one by more than rounding. -/
theorem le_of_accepted (hdifficulty : 0 < difficulty) (hmultiplier : 0 ≤ shareMultiplier)
    {target : ℕ} (hne : target ≠ 0)
    (h : isLowShare (shareDiff conversion shareMultiplier target) difficulty = false) :
    minRatio * (target * difficulty) ≤ diff1b * shareMultiplier * (1 + 1 / 2 ^ 48) := by
  have hpos : (0 : ℚ) < target := Nat.cast_pos.mpr (Nat.pos_of_ne_zero hne)
  have hexact : 0 ≤ (diff1b : ℚ) / target * shareMultiplier :=
    mul_nonneg (by positivity) hmultiplier
  obtain ⟨hlow, hhigh⟩ := shareDiff_bounds conversion hmultiplier hne
  have hnonneg : 0 ≤ shareDiff conversion shareMultiplier target :=
    le_trans (mul_nonneg hexact (by norm_num)) hlow
  have hratio := le_of_isLowShare_eq_false hdifficulty hnonneg h
  have hbound : minRatio * difficulty ≤
      (diff1b : ℚ) / target * shareMultiplier * (1 + 1 / 2 ^ 48) := by
    generalize (diff1b : ℚ) / target * shareMultiplier = exactShareDiff at *
    norm_num at hhigh hratio ⊢
    linarith
  rw [div_mul_eq_mul_div, div_mul_eq_mul_div, le_div_iff₀ hpos] at hbound
  linarith

end targets

/-- The target of a difficulty is what a miner relies on just if it is copied and the difficulty
keeps its 255ths, for every share multiplier from 1 on; below 1 the multiplier has to be high
enough for the target, up to the rounding of share-diffs. -/
theorem targetAgrees_iff (conversion : DoubleConversion) (shareMultiplier difficulty : ℚ)
    (hdiff : 0 < wholeScaled difficulty) :
    (1 ≤ shareMultiplier →
      (TargetAgrees conversion shareMultiplier difficulty ↔ KeepsDifficulty difficulty)) ∧
    (0 ≤ shareMultiplier → TargetAgrees conversion shareMultiplier difficulty →
      KeepsDifficulty difficulty ∧ minRatio * (wholeTarget difficulty * difficulty) ≤
        diff1b * shareMultiplier * (1 + 1 / 2 ^ 48)) ∧
    (0 ≤ shareMultiplier → KeepsDifficulty difficulty →
      minRatio * (wholeTarget difficulty * difficulty) * (1 + 1 / 2 ^ 48) ≤
        diff1b * shareMultiplier → TargetAgrees conversion shareMultiplier difficulty) := by
  have hdifficulty : 0 < difficulty := by
    have hone := (le_wholeScaled_iff Nat.one_pos).mp hdiff
    push_cast at hone
    linarith
  refine ⟨fun hone => ⟨fun h => h.keepsDifficulty hdiff, fun h => ?_⟩,
    fun hmultiplier h => ⟨h.keepsDifficulty hdiff, ?_⟩, fun hmultiplier h hle => ?_⟩
  · refine ⟨h.exists_bytes, accepted_of_le hdifficulty (by linarith) ?_⟩
    have htarget := wholeTarget_mul_le h.large
    have hmultiplied : (diff1b : ℚ) ≤ diff1b * shareMultiplier :=
      le_mul_of_one_le_right (Nat.cast_nonneg _) hone
    norm_num [minRatio] at htarget ⊢
    linarith
  · have hne : wholeTarget difficulty ≠ 0 := by
      obtain ⟨bytes, -, hne, hvalue, -⟩ := h.encoded
      exact hvalue ▸ hne
    exact le_of_accepted hdifficulty hmultiplier hne (h.accepted _ le_rfl hne)
  · exact ⟨h.exists_bytes, accepted_of_le hdifficulty hmultiplier hle⟩

theorem targetAgrees_512 : TargetAgrees .nearest 1 512 :=
  ((targetAgrees_iff .nearest 1 512 (by decide +kernel)).1 le_rfl).mpr
    ⟨le_rfl, by decide +kernel⟩

/-- A difficulty of 511 is sent as zero, and one a little above 512 is sent as a 255th more. -/
theorem not_targetAgrees :
    ¬ TargetAgrees .nearest 1 511 ∧
      ¬ TargetAgrees .nearest 1 (562954265231617 / 1099511627776) := by
  constructor
  · intro h
    exact absurd (h.keepsDifficulty (by decide +kernel)).large (by norm_num)
  · intro h
    exact absurd (h.keepsDifficulty (by decide +kernel)).scaled_eq (by decide +kernel)

end Miningcore.Zano
