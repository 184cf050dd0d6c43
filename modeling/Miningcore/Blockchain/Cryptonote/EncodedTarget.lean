import Mathlib.Tactic.Ring
import Miningcore.Blockchain.Cryptonote.LowDifficulty

/-!
# The target that is sent to a miner

The four bytes of a target are the highest of a quotient by a difficulty that is cut to
255ths. They are the largest number below `2 ^ 32` over that difficulty, which is at
most `2 ^ 32` over the difficulty itself when no whole number is between the two. A
quotient of more than 247 bits is not copied, so a difficulty below 512 is sent as zero.

## Implementation notes

Difficulties are doubles, and the conversion of whole numbers to doubles is a parameter.
-/

namespace Miningcore.Cryptonote

open Foundation Bitcoin Mining

section bytes

/-- The highest bytes of a number. -/
theorem reverse_take_littleEndian (width kept n : ℕ) :
    ((littleEndian (width + kept) n).reverse.take kept).reverse =
      littleEndian kept (n / 256 ^ width) := by
  rw [List.take_reverse, List.reverse_reverse, length_littleEndian, Nat.add_sub_cancel,
    littleEndian_add]
  exact List.drop_left' (length_littleEndian width n)

end bytes

section quotient

variable {diff n : ℕ}

/-- The highest bits of the quotient are the largest number that is below `2 ^ 32` by the
difficulty. -/
theorem le_scaledQuotient_div_iff (hdiff : 0 < diff) :
    n ≤ scaledQuotient diff / 2 ^ 224 ↔ n * diff < 255 * 2 ^ 32 := by
  rw [Nat.le_div_iff_mul_le (by positivity), scaledQuotient]
  have hdivision := Nat.div_add_mod (2 ^ 256 - 1) diff
  have hrest := Nat.mod_lt (2 ^ 256 - 1) hdiff
  generalize (2 ^ 256 - 1) / diff = quotient at *
  constructor
  · intro h
    have hscaled : n * 2 ^ 224 * diff ≤ quotient * 255 * diff := Nat.mul_le_mul_right diff h
    have hproduct : quotient * 255 * diff = 255 * (diff * quotient) := by ring
    have hshifted : n * 2 ^ 224 * diff = n * diff * 2 ^ 224 := by ring
    omega
  · intro h
    obtain rfl | hpos := Nat.eq_zero_or_pos n
    · simp
    · have hle : diff ≤ n * diff := Nat.le_mul_of_pos_left diff hpos
      apply Nat.le_of_mul_le_mul_right _ hdiff
      have hproduct : quotient * 255 * diff = 255 * (diff * quotient) := by ring
      have hshifted : n * 2 ^ 224 * diff = n * diff * 2 ^ 224 := by ring
      omega

end quotient

section targets

variable {conversion : DoubleConversion} {difficulty : ℚ} {sent : ℕ}

theorem encodeTarget_eq (hdiff : 0 < scaledDifficulty longMax difficulty) :
    encodeTarget difficulty = some (toHexString (littleEndian 4
      (if 130560 ≤ scaledDifficulty longMax difficulty then
        scaledQuotient (scaledDifficulty longMax difficulty) / 2 ^ 224 else 0))) := by
  rw [encodeTarget]
  change (if scaledDifficulty longMax difficulty = 0 then none else some (toHexString
    ((padTarget (signedBytes (scaledQuotient (scaledDifficulty longMax difficulty))).reverse).take
      4).reverse)) = _
  rw [if_neg hdiff.ne', padTarget_reverse]
  simp only [scaledQuotient_lt_iff hdiff]
  split_ifs
  · rw [reverse_take_littleEndian 28 4, show 256 ^ 28 = 2 ^ 224 by norm_num]
  · rfl

/-- What a miner of a difficulty relies on in the four bytes of a target. -/
structure IsTarget (conversion : DoubleConversion) (difficulty : ℚ) (sent : ℕ) : Prop where
  encoded : encodeTarget difficulty = some (toHexString (littleEndian 4 sent))
  lt : sent < 2 ^ 32
  truncated : ∃ target : ℕ, (target : ℚ) ≤ 2 ^ 256 / difficulty ∧ sent = target / 2 ^ 224
  ne_zero : difficulty < 2 ^ 32 → sent ≠ 0
  accepted : ∀ headerHash : Bytes, headerHash.length = 32 → Progpow.toBigInteger headerHash ≠ 0 →
    Progpow.toBigInteger (headerHash.drop 28) < sent →
      isLowShare (conversion.bigRational diff1b (Progpow.toBigInteger headerHash)) difficulty =
        false

/-- A hash below a target that was copied has 0.99 of the difficulty. -/
theorem isLowShare_eq_false_of_lt {headerHash : Bytes} (hdifficulty : 0 < difficulty)
    (hlarge : 130560 ≤ scaledDifficulty longMax difficulty)
    (hsent : sent * scaledDifficulty longMax difficulty < 255 * 2 ^ 32)
    (hlength : headerHash.length = 32) (hhash : Progpow.toBigInteger headerHash ≠ 0)
    (hlt : Progpow.toBigInteger (headerHash.drop 28) < sent) :
    isLowShare (conversion.bigRational diff1b (Progpow.toBigInteger headerHash)) difficulty =
      false := by
  have hpos : (0 : ℚ) < Progpow.toBigInteger headerHash :=
    Nat.cast_pos.mpr (Nat.pos_of_ne_zero hhash)
  have hbelow : Progpow.toBigInteger headerHash < sent * 2 ^ 224 := by
    rw [← List.take_append_drop 28 headerHash, toBigInteger_append, List.length_take, hlength]
    have hlow := toBigInteger_lt (headerHash.take 28)
    rw [List.length_take, hlength] at hlow
    norm_num at hlow ⊢
    omega
  have hfits : scaledDifficulty longMax difficulty < longMax :=
    calc scaledDifficulty longMax difficulty
        ≤ sent * scaledDifficulty longMax difficulty :=
          Nat.le_mul_of_pos_left _ (Nat.zero_lt_of_lt hlt)
      _ < 255 * 2 ^ 32 := hsent
      _ < longMax := by decide
  have hcut := lt_scaledDifficulty_add_one hdifficulty.le hfits
  have hproduct : Progpow.toBigInteger headerHash * scaledDifficulty longMax difficulty <
      255 * 2 ^ 256 := by
    calc Progpow.toBigInteger headerHash * scaledDifficulty longMax difficulty
        ≤ sent * 2 ^ 224 * scaledDifficulty longMax difficulty :=
          Nat.mul_le_mul_right _ hbelow.le
      _ = sent * scaledDifficulty longMax difficulty * 2 ^ 224 := by ring
      _ < 255 * 2 ^ 32 * 2 ^ 224 := Nat.mul_lt_mul_of_pos_right hsent (by positivity)
      _ = 255 * 2 ^ 256 := by norm_num
  have hproductCast : (Progpow.toBigInteger headerHash : ℚ) *
      scaledDifficulty longMax difficulty < 255 * 2 ^ 256 := by exact_mod_cast hproduct
  have hlargeCast : (130560 : ℚ) ≤ scaledDifficulty longMax difficulty := by
    exact_mod_cast hlarge
  -- cutting to 255ths and rounding take less than one part in 130000
  have hcutProduct : difficulty * 255 * Progpow.toBigInteger headerHash ≤
      130001 / 130000 * (Progpow.toBigInteger headerHash *
        scaledDifficulty longMax difficulty) := by
    calc difficulty * 255 * Progpow.toBigInteger headerHash
        ≤ 130001 / 130000 * scaledDifficulty longMax difficulty *
            Progpow.toBigInteger headerHash := by
          refine mul_le_mul_of_nonneg_right ?_ hpos.le
          norm_num at hcut
          linarith
      _ = 130001 / 130000 * (Progpow.toBigInteger headerHash *
            scaledDifficulty longMax difficulty) := by ring
  have hshareDiff := (conversion.bigRational_bounds diff1b (Nat.pos_of_ne_zero hhash)).1
  refine isLowShare_eq_false hdifficulty (le_trans ?_ hshareDiff)
  rw [div_mul_eq_mul_div, le_div_iff₀ hpos, minRatio, diff1b]
  norm_num at hproductCast ⊢
  linarith

/-- A target that is not zero below `2 ^ 32` was copied. -/
theorem IsTarget.copied (h : IsTarget conversion difficulty sent) (hdouble : IsDouble difficulty) :
    512 ≤ difficulty ∧ sent = scaledQuotient (scaledDifficulty longMax difficulty) / 2 ^ 224 := by
  have hdiff : 0 < scaledDifficulty longMax difficulty := by
    by_contra hzero
    have hnone : encodeTarget difficulty = none := if_pos (Nat.eq_zero_of_not_pos hzero)
    exact Option.some_ne_none _ (h.encoded.symm.trans hnone)
  have hbytes := toHexString_injective (Option.some.inj (h.encoded.symm.trans
    (encodeTarget_eq hdiff)))
  by_cases hlarge : 130560 ≤ scaledDifficulty longMax difficulty
  · refine ⟨(le_scaledDifficulty_large_iff (by decide) hdouble).mp hlarge, ?_⟩
    rw [if_pos hlarge] at hbytes
    refine littleEndian_inj h.lt ?_ hbytes
    have hquotient := (scaledQuotient_lt_iff hdiff).mpr hlarge
    omega
  · exfalso
    rw [if_neg hlarge] at hbytes
    have hsmall := mt (le_scaledDifficulty_large_iff (by decide) hdouble).mpr hlarge
    exact h.ne_zero (by linarith) (littleEndian_inj h.lt (by norm_num) hbytes)

/-- The top four bytes of the quotient are a target when the cut loses no whole number. -/
theorem isTarget_of_cut (hdouble : IsDouble difficulty) (hdifficulty : 512 ≤ difficulty)
    (hcut : ∀ n : ℕ, n * scaledDifficulty longMax difficulty < 255 * 2 ^ 32 →
      n * difficulty ≤ 2 ^ 32) :
    IsTarget conversion difficulty
      (scaledQuotient (scaledDifficulty longMax difficulty) / 2 ^ 224) := by
  have hlarge : 130560 ≤ scaledDifficulty longMax difficulty :=
    (le_scaledDifficulty_large_iff (by decide) hdouble).mpr hdifficulty
  have hdiff : 0 < scaledDifficulty longMax difficulty := by omega
  have hsent := (le_scaledQuotient_div_iff hdiff).mp
    (le_refl (scaledQuotient (scaledDifficulty longMax difficulty) / 2 ^ 224))
  constructor
  · rw [encodeTarget_eq hdiff, if_pos hlarge]
  · have hquotient := (scaledQuotient_lt_iff hdiff).mpr hlarge
    omega
  · refine ⟨scaledQuotient (scaledDifficulty longMax difficulty) / 2 ^ 224 * 2 ^ 224, ?_, ?_⟩
    · rw [le_div_iff₀ (by linarith)]
      have hproduct := hcut _ hsent
      push_cast
      linarith
    · rw [Nat.mul_div_cancel _ (by positivity)]
  · intro hsmall
    have hone : 1 ≤ scaledQuotient (scaledDifficulty longMax difficulty) / 2 ^ 224 := by
      refine (le_scaledQuotient_div_iff hdiff).mpr ?_
      rw [one_mul]
      exact scaledDifficulty_lt hdouble hsmall
    omega
  · intro headerHash hlength hhash hlt
    exact isLowShare_eq_false_of_lt (by linarith) hlarge hsent hlength hhash hlt

end targets

/-- The four bytes of a target are what a miner relies on just if the difficulty is at least 512
and no whole number above `2 ^ 32` over it is below `2 ^ 32` over what is left of it in 255ths. -/
theorem exists_isTarget_iff (conversion : DoubleConversion) (difficulty : ℚ)
    (hdouble : IsDouble difficulty) :
    (∃ sent, IsTarget conversion difficulty sent) ↔
      512 ≤ difficulty ∧ ∀ n : ℕ, n * scaledDifficulty longMax difficulty < 255 * 2 ^ 32 →
        n * difficulty ≤ 2 ^ 32 := by
  constructor
  · rintro ⟨sent, h⟩
    obtain ⟨hdifficulty, hsent⟩ := h.copied hdouble
    have hlarge : 130560 ≤ scaledDifficulty longMax difficulty :=
      (le_scaledDifficulty_large_iff (by decide) hdouble).mpr hdifficulty
    have hdiff : 0 < scaledDifficulty longMax difficulty := by omega
    refine ⟨hdifficulty, fun n hn => ?_⟩
    obtain ⟨target, htarget, htop⟩ := h.truncated
    have hle : n ≤ sent := hsent ▸ (le_scaledQuotient_div_iff hdiff).mpr hn
    have htargetLe : sent * 2 ^ 224 ≤ target := htop ▸ Nat.div_mul_le_self target (2 ^ 224)
    have hscaled : (n : ℚ) * 2 ^ 224 ≤ target := by
      exact_mod_cast (Nat.mul_le_mul_right _ hle).trans htargetLe
    have hpos : 0 < difficulty := by linarith
    have hproduct : (n : ℚ) * 2 ^ 224 * difficulty ≤ 2 ^ 256 :=
      (le_div_iff₀ hpos).mp (hscaled.trans htarget)
    linarith
  · rintro ⟨hdifficulty, hcut⟩
    exact ⟨_, isTarget_of_cut hdouble hdifficulty hcut⟩

theorem exists_isTarget_1000 : ∃ sent, IsTarget .nearest 1000 sent := by
  refine (exists_isTarget_iff .nearest 1000 (isDouble_natCast (n := 1000) (by norm_num))).mpr
    ⟨by norm_num, fun n hn => ?_⟩
  have hscaled : scaledDifficulty longMax 1000 = 255000 := by decide +kernel
  rw [hscaled] at hn
  have hle : n * 1000 ≤ 2 ^ 32 := by omega
  exact_mod_cast hle

/-- A difficulty of 511 is sent as zero, one below a 255th has no target, and 512.00390625 is sent
as if it were 512. -/
theorem not_isTarget :
    (∀ sent, ¬ IsTarget .nearest 511 sent) ∧
    (∀ sent, ¬ IsTarget .nearest (1 / 256) sent) ∧
    ∀ sent, ¬ IsTarget .nearest (131073 / 256) sent := by
  have hsmall : encodeTarget 511 = some (toHexString (littleEndian 4 0)) := by decide +kernel
  have hnone : encodeTarget (1 / 256) = none := by decide +kernel
  have hcut : encodeTarget (131073 / 256) = some (toHexString (littleEndian 4 0x7fffff)) := by
    decide +kernel
  refine ⟨fun sent h => ?_, fun sent h => ?_, fun sent h => ?_⟩
  · have hbytes := toHexString_injective (Option.some.inj (h.encoded.symm.trans hsmall))
    exact h.ne_zero (by norm_num) (littleEndian_inj h.lt (by norm_num) hbytes)
  · exact Option.some_ne_none _ (h.encoded.symm.trans hnone)
  · have hbytes := toHexString_injective (Option.some.inj (h.encoded.symm.trans hcut))
    have hsent := littleEndian_inj h.lt (by norm_num) hbytes
    obtain ⟨target, htarget, htop⟩ := h.truncated
    have hle : 0x7fffff * 2 ^ 224 ≤ target := hsent ▸ htop ▸ Nat.div_mul_le_self target (2 ^ 224)
    have hcast : (0x7fffff * 2 ^ 224 : ℚ) ≤ target := by exact_mod_cast hle
    norm_num at htarget
    linarith

end Miningcore.Cryptonote
