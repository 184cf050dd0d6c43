import Mathlib.Tactic.NormNum
import Miningcore.Blockchain.Pearl.PearlJobManager
import Miningcore.Foundation.CompactForm

/-!
# Share targets of Pearl

A miner gets the share target of its difficulty as a text, and the bridge verifies its proof
against the same target in compact bits. It knows the current difficulty of the miner only.

## Implementation notes

Difficulties are doubles, whose products with powers of two are exact up to the infinite
ones. A proof is verified by a comparison of its hash with the target of the bits.
-/

namespace Miningcore.Pearl

open Foundation

def maxTarget : ℕ := 2 ^ 256 - 1

/-- `BigInteger.ToString("x")`, which has a digit in front of a highest bit. -/
def bigIntegerHex (n : ℕ) : List Char := hexText (bitLength n / 4 + 1) n

def padLeft (width : ℕ) (text : List Char) : List Char :=
  List.replicate (width - text.length) '0' ++ text

/-- An infinite product is no integer, and the division by zero throws. -/
def difficultyToTargetHex (difficulty : ℚ) : Option (List Char) :=
  let difficulty := if difficulty ≤ 0 then 1 else difficulty
  if 2 ^ 1024 ≤ difficulty * 2 ^ 16 then none
  else
    let divisor := ⌊difficulty * 2 ^ 16⌋.toNat
    if divisor = 0 then none
    else
      let quotient := diff1Target * 2 ^ 16 / divisor
      let quotient := if maxTarget < quotient then maxTarget else quotient
      let hex := bigIntegerHex quotient
      some (padLeft 64 (if 64 < hex.length then hex.drop (hex.length - 64) else hex))

/-- The target of compact bits. -/
def bitsToTarget (bits : ℕ) : ℕ :=
  let exponent := bits >>> 24
  let mantissa := bits &&& 0x7fffff
  if exponent ≤ 3 then mantissa >>> (8 * (3 - exponent)) else mantissa <<< (8 * (exponent - 3))

section compact

variable {target : ℕ}

theorem bitsToTarget_pack {size compact : ℕ} (h : compact < 2 ^ 23) :
    bitsToTarget ((size <<< 24) ||| (compact &&& 0x7FFFFF)) =
      if size ≤ 3 then compact >>> (8 * (3 - size)) else compact <<< (8 * (size - 3)) := by
  have hmask (x : ℕ) : x &&& 0x7FFFFF = x % 2 ^ 23 := Nat.and_two_pow_sub_one_eq_mod x 23
  have hpack : (size <<< 24) ||| (compact &&& 0x7FFFFF) = size * 2 ^ 24 + compact := by
    rw [hmask, Nat.mod_eq_of_lt h, ← Nat.shiftLeft_add_eq_or_of_lt (by omega), Nat.shiftLeft_eq]
  have hexponent : (size * 2 ^ 24 + compact) >>> 24 = size := by
    rw [Nat.shiftRight_eq_div_pow]
    omega
  have hmantissa : (size * 2 ^ 24 + compact) &&& 0x7fffff = compact := by
    rw [hmask]
    omega
  rw [hpack, bitsToTarget, hexponent, hmantissa]

/-- As many bytes as a number has. -/
theorem size_bounds (h : target ≠ 0) :
    1 ≤ (bitLength target + 7) / 8 ∧ 256 ^ ((bitLength target + 7) / 8 - 1) ≤ target ∧
      target < 256 ^ ((bitLength target + 7) / 8) := by
  have hlow := Nat.log2_self_le h
  have hhigh : target < 2 ^ (target.log2 + 1) := Nat.lt_log2_self
  have hpow (k : ℕ) : 256 ^ k = 2 ^ (8 * k) := by rw [Nat.pow_mul]
  rw [bitLength, if_neg h, hpow, hpow]
  refine ⟨by omega, le_trans (Nat.pow_le_pow_right (by omega) (by omega)) hlow,
    lt_of_lt_of_le hhigh (Nat.pow_le_pow_right (by omega) (by omega))⟩

theorem testBit_sign_iff {compact : ℕ} (h : compact < 2 ^ 24) :
    compact.testBit 23 = true ↔ 2 ^ 23 ≤ compact := by
  rw [Nat.testBit_eq_decide_div_mod_eq, decide_eq_true_eq]
  omega

/-- The bits of a target whose first three bytes or less are the mantissa. -/
theorem bitsToTarget_small (hlt : target < 2 ^ 24) {size : ℕ}
    (hone : 1 ≤ size) (hthree : size ≤ 3) (hhigh : target < 256 ^ size) :
    ∃ scale, IsScale 256 (2 ^ 23) target scale ∧
      bitsToTarget
        (if (target <<< (8 * (3 - size))).testBit 23 then
          ((size + 1) <<< 24) ||| (((target <<< (8 * (3 - size))) >>> 8) &&& 0x7FFFFF)
        else (size <<< 24) ||| ((target <<< (8 * (3 - size))) &&& 0x7FFFFF)) =
        cutOff 256 scale target := by
  have hcompact : target <<< (8 * (3 - size)) < 2 ^ 24 := by
    rw [Nat.shiftLeft_eq]
    obtain rfl | rfl | rfl : size = 1 ∨ size = 2 ∨ size = 3 := by omega
    · omega
    · omega
    · omega
  by_cases hsign : (target <<< (8 * (3 - size))).testBit 23 = true
  · rw [if_pos hsign, bitsToTarget_pack (by rw [Nat.shiftRight_eq_div_pow]; omega)]
    rw [testBit_sign_iff hcompact] at hsign
    obtain rfl | rfl | rfl : size = 1 ∨ size = 2 ∨ size = 3 := by omega
    · refine ⟨0, ⟨by omega, Or.inl rfl⟩, ?_⟩
      rw [if_pos (by omega), cutOff, Nat.shiftRight_eq_div_pow, Nat.shiftRight_eq_div_pow,
        Nat.shiftLeft_eq]
      omega
    · refine ⟨0, ⟨by omega, Or.inl rfl⟩, ?_⟩
      rw [if_pos (by omega), cutOff, Nat.shiftRight_eq_div_pow, Nat.shiftRight_eq_div_pow,
        Nat.shiftLeft_eq]
      omega
    · rw [Nat.shiftLeft_eq] at hsign
      refine ⟨1, ⟨by omega, Or.inr (by omega)⟩, ?_⟩
      rw [if_neg (by omega), cutOff, Nat.shiftLeft_eq, Nat.shiftRight_eq_div_pow, Nat.shiftLeft_eq]
      omega
  · have hmantissa : target <<< (8 * (3 - size)) < 2 ^ 23 := by
      rw [testBit_sign_iff hcompact] at hsign
      omega
    rw [if_neg hsign, bitsToTarget_pack hmantissa, if_pos hthree]
    rw [Nat.shiftLeft_eq] at hmantissa
    obtain rfl | rfl | rfl : size = 1 ∨ size = 2 ∨ size = 3 := by omega
    · refine ⟨0, ⟨by omega, Or.inl rfl⟩, ?_⟩
      rw [cutOff, Nat.shiftRight_eq_div_pow, Nat.shiftLeft_eq]
      omega
    · refine ⟨0, ⟨by omega, Or.inl rfl⟩, ?_⟩
      rw [cutOff, Nat.shiftRight_eq_div_pow, Nat.shiftLeft_eq]
      omega
    · refine ⟨0, ⟨by omega, Or.inl rfl⟩, ?_⟩
      rw [cutOff, Nat.shiftRight_eq_div_pow, Nat.shiftLeft_eq]
      omega

/-- The bits of a target keep its first bytes. -/
theorem bitsToTarget_targetToBits (h : target ≠ 0) :
    ∃ scale, IsScale 256 (2 ^ 23) target scale ∧
      bitsToTarget (targetToBits target) = cutOff 256 scale target := by
  obtain ⟨hone, hlow, hhigh⟩ := size_bounds h
  rw [targetToBits, if_neg h]
  dsimp only
  generalize (bitLength target + 7) / 8 = size at hone hlow hhigh ⊢
  by_cases hthree : size ≤ 3
  · have hlt : target < 2 ^ 24 :=
      lt_of_lt_of_le hhigh (Nat.pow_le_pow_right (n := 256) (by omega) hthree)
    rw [if_pos hthree]
    exact bitsToTarget_small hlt hone hthree hhigh
  · obtain ⟨more, rfl⟩ : ∃ more, size = more + 4 := ⟨size - 4, by omega⟩
    have hpow (k : ℕ) : 2 ^ (8 * k) = 256 ^ k := by rw [Nat.pow_mul]
    have hpos : 0 < 256 ^ more := Nat.pow_pos (by omega)
    have hthird : 256 ^ (more + 1) = 256 * 256 ^ more := by rw [Nat.pow_succ, Nat.mul_comm]
    have hsecond : 256 ^ (more + 2) = 2 ^ 16 * 256 ^ more := by
      rw [Nat.pow_succ, hthird]
      omega
    have hlast : 256 ^ (more + 3) = 2 ^ 24 * 256 ^ more := by
      rw [Nat.pow_succ, hsecond]
      omega
    have hsize : 256 ^ (more + 4) = 2 ^ 32 * 256 ^ more := by
      rw [Nat.pow_succ, hlast]
      omega
    rw [show more + 4 - 1 = more + 3 by omega, hlast] at hlow
    rw [hsize] at hhigh
    have hcompact : target >>> (8 * (more + 4 - 3)) = target / 256 ^ (more + 1) := by
      rw [Nat.shiftRight_eq_div_pow, hpow]
      rfl
    have hbound : target / 256 ^ (more + 1) < 2 ^ 24 := by
      rw [Nat.div_lt_iff_lt_mul (Nat.pow_pos (by omega)), hthird]
      omega
    rw [if_neg hthree, hcompact]
    by_cases hsign : (target / 256 ^ (more + 1)).testBit 23 = true
    · rw [if_pos hsign, bitsToTarget_pack (by rw [Nat.shiftRight_eq_div_pow]; omega),
        if_neg (by omega)]
      rw [testBit_sign_iff hbound, Nat.le_div_iff_mul_le (Nat.pow_pos (by omega))] at hsign
      refine ⟨more + 2, ⟨by rw [hsecond]; omega, Or.inr hsign⟩, ?_⟩
      rw [cutOff, Nat.shiftLeft_eq, hpow, Nat.shiftRight_eq_div_pow, Nat.div_div_eq_div_mul,
        show more + 4 + 1 - 3 = more + 2 by omega, show 2 ^ 8 = 256 by rfl, ← Nat.pow_succ]
    · have hmantissa : target / 256 ^ (more + 1) < 2 ^ 23 := by
        rw [testBit_sign_iff hbound] at hsign
        omega
      rw [if_neg hsign, bitsToTarget_pack hmantissa, if_neg hthree]
      rw [Nat.div_lt_iff_lt_mul (Nat.pow_pos (by omega))] at hmantissa
      refine ⟨more + 1, ⟨hmantissa, Or.inr ?_⟩, ?_⟩
      · rw [Nat.add_sub_cancel]
        omega
      · rw [cutOff, Nat.shiftLeft_eq, hpow]
        rfl

end compact

section text

theorem hexValue_zeros (count : ℕ) (text : List Char) :
    hexValue (List.replicate count '0' ++ text) = hexValue text := by
  induction text using List.reverseRecOn with
  | nil =>
      rw [List.append_nil]
      induction count with
      | zero => rfl
      | succ count ih =>
          rw [List.replicate_succ', hexValue_concat, ih]
          rfl
  | append_singleton text c ih =>
      rw [← List.append_assoc, hexValue_concat, ih, hexValue_concat]

/-- The text of a target has its value. -/
theorem hexValue_targetHex {target : ℕ} (h : target < 2 ^ 252) :
    hexValue (padLeft 64 (if 64 < (bigIntegerHex target).length
      then (bigIntegerHex target).drop ((bigIntegerHex target).length - 64)
      else bigIntegerHex target)) = target := by
  have hbits : bitLength target ≤ 252 ∧ target < 2 ^ bitLength target := by
    rw [bitLength]
    split
    · omega
    · rename_i hzero
      exact ⟨(Nat.log2_lt hzero).mpr h, Nat.lt_log2_self⟩
  have hlength : (bigIntegerHex target).length = bitLength target / 4 + 1 := length_hexText _ _
  have hfits : target < 16 ^ (bitLength target / 4 + 1) :=
    calc target < 2 ^ bitLength target := hbits.2
      _ ≤ 2 ^ (4 * (bitLength target / 4 + 1)) := Nat.pow_le_pow_right (by omega) (by omega)
      _ = 16 ^ (bitLength target / 4 + 1) := by rw [Nat.pow_mul]
  rw [if_neg (by omega), padLeft, hexValue_zeros, bigIntegerHex, hexValue_hexText _ _ hfits]

end text

/-- Both sides make a target of a difficulty, and all hashes that are not above the miner's pass the
check of the bridge. -/
def Agrees (difficulty : ℚ) : Prop :=
  ∃ hex nbits, difficultyToTargetHex difficulty = some hex ∧
    difficultyToShareNbits difficulty = some nbits ∧ 0 < hexValue hex ∧
      0 < bitsToTarget nbits ∧ ∀ hash ≤ hexValue hex, hash ≤ bitsToTarget nbits

/-- The quotient by the scaled difficulty is, rounded down, a mantissa of 23 bits with a power of
256. -/
def HasCompactQuotient (difficulty : ℚ) : Prop :=
  ∃ mantissa exponent : ℕ, 0 < mantissa ∧ mantissa < 2 ^ 23 ∧
    (mantissa * 256 ^ exponent : ℕ) * ⌊difficulty * 2 ^ 16⌋ ≤ (diff1Target * 2 ^ 16 : ℕ) ∧
      (diff1Target * 2 ^ 16 : ℕ) < (mantissa * 256 ^ exponent + 1 : ℕ) * ⌊difficulty * 2 ^ 16⌋

section difficulty

variable {difficulty : ℚ}

theorem diff1Target_lt : diff1Target * 2 ^ 16 < 2 ^ 240 := by decide +kernel

/-- The quotient is between two products. -/
theorem hasCompactQuotient_iff (hpos : 0 < difficulty) :
    HasCompactQuotient difficulty ↔
      0 < ⌊difficulty * 2 ^ 16⌋.toNat ∧
        0 < diff1Target * 2 ^ 16 / ⌊difficulty * 2 ^ 16⌋.toNat ∧
          HasCompactForm 256 (2 ^ 23) (diff1Target * 2 ^ 16 / ⌊difficulty * 2 ^ 16⌋.toNat) := by
  have hfloor : 0 ≤ ⌊difficulty * 2 ^ 16⌋ := Int.floor_nonneg.mpr (by positivity)
  obtain ⟨divisor, hdivisor⟩ := Int.eq_ofNat_of_zero_le hfloor
  rw [HasCompactQuotient, hdivisor, Int.toNat_natCast]
  generalize diff1Target * 2 ^ 16 = scaled
  constructor
  · rintro ⟨mantissa, exponent, hmantissa, hlt, hlow, hhigh⟩
    norm_cast at hlow hhigh
    have hne : 0 < divisor := by
      by_contra hzero
      rw [Nat.eq_zero_of_not_pos hzero, Nat.mul_zero] at hhigh
      omega
    have hquotient : scaled / divisor = mantissa * 256 ^ exponent := by
      rw [Nat.div_eq_iff hne]
      rw [Nat.add_mul] at hhigh
      omega
    have hpositive : 0 < mantissa * 256 ^ exponent := Nat.mul_pos hmantissa (Nat.pow_pos (by omega))
    rw [hquotient]
    exact ⟨hne, hpositive, mantissa, exponent, hlt, rfl⟩
  · rintro ⟨hne, hpositive, mantissa, exponent, hlt, hquotient⟩
    refine ⟨mantissa, exponent, ?_, hlt, ?_⟩
    · by_contra hzero
      rw [hquotient, Nat.eq_zero_of_not_pos hzero, Nat.zero_mul] at hpositive
      omega
    · norm_cast
      rw [Nat.div_eq_iff hne] at hquotient
      rw [Nat.add_mul]
      omega

/-- Without a scaled difficulty there is no target. -/
theorem not_agrees_of_zero (hpos : 0 < difficulty)
    (hzero : ⌊difficulty * 2 ^ 16⌋.toNat = 0) : ¬ Agrees difficulty := by
  rintro ⟨hex, nbits, -, hnbits, -⟩
  rw [difficultyToShareNbits, if_neg (not_le.mpr hpos), if_pos hzero] at hnbits
  cases hnbits

/-- The miner's target is the quotient. -/
theorem hexValue_difficultyToTargetHex (hpos : 0 < difficulty)
    (hfinite : ¬ 2 ^ 1024 ≤ difficulty * 2 ^ 16) (hne : ⌊difficulty * 2 ^ 16⌋.toNat ≠ 0) :
    ∃ hex, difficultyToTargetHex difficulty = some hex ∧
      hexValue hex = diff1Target * 2 ^ 16 / ⌊difficulty * 2 ^ 16⌋.toNat := by
  have hbound : diff1Target * 2 ^ 16 / ⌊difficulty * 2 ^ 16⌋.toNat < 2 ^ 252 :=
    calc diff1Target * 2 ^ 16 / ⌊difficulty * 2 ^ 16⌋.toNat
        ≤ diff1Target * 2 ^ 16 := Nat.div_le_self _ _
      _ < 2 ^ 240 := diff1Target_lt
      _ ≤ 2 ^ 252 := Nat.pow_le_pow_right (by omega) (by omega)
  have hmax : ¬ maxTarget < diff1Target * 2 ^ 16 / ⌊difficulty * 2 ^ 16⌋.toNat := by
    rw [maxTarget]
    omega
  rw [difficultyToTargetHex, if_neg (not_le.mpr hpos), if_neg hfinite, if_neg hne]
  dsimp only
  rw [if_neg hmax]
  exact ⟨_, rfl, hexValue_targetHex hbound⟩

/-- An infinite product is beyond every quotient. -/
theorem quotient_eq_zero_of_infinite (h : 2 ^ 1024 ≤ difficulty * 2 ^ 16) :
    diff1Target * 2 ^ 16 / ⌊difficulty * 2 ^ 16⌋.toNat = 0 := by
  have hfloor : (2 : ℤ) ^ 1024 ≤ ⌊difficulty * 2 ^ 16⌋ := by
    rw [Int.le_floor]
    exact_mod_cast h
  have hlarge : 2 ^ 240 ≤ ⌊difficulty * 2 ^ 16⌋.toNat := by
    have hle : (2 : ℤ) ^ 240 ≤ 2 ^ 1024 := pow_le_pow_right₀ (by norm_num) (by norm_num)
    omega
  exact Nat.div_eq_of_lt (lt_of_lt_of_le diff1Target_lt hlarge)

/-- The two sides agree on a difficulty just if the bits hold all of its target. -/
theorem agrees_iff (difficulty : ℚ) (hpos : 0 < difficulty) :
    Agrees difficulty ↔ HasCompactQuotient difficulty := by
  rw [hasCompactQuotient_iff hpos]
  by_cases hzero : ⌊difficulty * 2 ^ 16⌋.toNat = 0
  · refine iff_of_false (not_agrees_of_zero hpos hzero) ?_
    rintro ⟨hne, -⟩
    omega
  · by_cases hinfinite : 2 ^ 1024 ≤ difficulty * 2 ^ 16
    · refine iff_of_false ?_ ?_
      · rintro ⟨hex, nbits, hhex, -⟩
        rw [difficultyToTargetHex, if_neg (not_le.mpr hpos), if_pos hinfinite] at hhex
        cases hhex
      · rintro ⟨-, hpositive, -⟩
        rw [quotient_eq_zero_of_infinite hinfinite] at hpositive
        omega
    · obtain ⟨hex, hhex, hvalue⟩ := hexValue_difficultyToTargetHex hpos hinfinite hzero
      have hnbits : difficultyToShareNbits difficulty =
          some (targetToBits (diff1Target * 2 ^ 16 / ⌊difficulty * 2 ^ 16⌋.toNat)) := by
        rw [difficultyToShareNbits, if_neg (not_le.mpr hpos), if_neg hzero]
      rw [← hvalue] at hnbits ⊢
      constructor
      · rintro ⟨hex', nbits, hhex', hnbits', hpositive, -, hall⟩
        rw [hhex, Option.some.injEq] at hhex'
        subst hhex'
        rw [hnbits, Option.some.injEq] at hnbits'
        subst hnbits'
        obtain ⟨scale, hscale, hbits⟩ :=
          bitsToTarget_targetToBits (Nat.pos_iff_ne_zero.mp hpositive)
        rw [hbits, hscale.forall_le_cutOff_iff (by omega)] at hall
        exact ⟨Nat.pos_of_ne_zero hzero, hpositive, hall⟩
      · rintro ⟨-, hpositive, hcompact⟩
        obtain ⟨scale, hscale, hbits⟩ :=
          bitsToTarget_targetToBits (Nat.pos_iff_ne_zero.mp hpositive)
        refine ⟨hex, _, hhex, hnbits, hpositive, ?_, ?_⟩
        · rw [hbits, (hscale.cutOff_eq_iff (by omega)).mpr hcompact]
          exact hpositive
        · rw [hbits]
          exact (hscale.forall_le_cutOff_iff (by omega)).mpr hcompact

end difficulty

/-- Difficulty 1 has the target of 16 bits. -/
theorem agrees_one : Agrees 1 := by
  rw [agrees_iff 1 (by norm_num)]
  exact ⟨0xFFFF, 26, by decide +kernel, by decide +kernel, by decide +kernel, by decide +kernel⟩

/-- The bridge refuses the highest hash that a miner at difficulty 7 may find, and a small
difficulty divides by zero. -/
theorem not_agrees_seven :
    (difficultyToTargetHex 7).map hexValue = some (0xFFFF * 2 ^ 208 / 7) ∧
      (difficultyToShareNbits 7).map bitsToTarget = some (0x249224 * 256 ^ 25) ∧
      ¬ Agrees 7 ∧ ¬ Agrees (1 / 2 ^ 17) := by
  have hhex : (difficultyToTargetHex 7).map hexValue = some (0xFFFF * 2 ^ 208 / 7) := by
    decide +kernel
  have hnbits : (difficultyToShareNbits 7).map bitsToTarget = some (0x249224 * 256 ^ 25) := by
    decide +kernel
  have hnone : difficultyToShareNbits (1 / 2 ^ 17) = none := by decide +kernel
  refine ⟨hhex, hnbits, ?_, ?_⟩
  · rintro ⟨hex, nbits, hmine, hbridge, -, -, hall⟩
    rw [hmine, Option.map_some, Option.some.injEq] at hhex
    rw [hbridge, Option.map_some, Option.some.injEq] at hnbits
    have hpasses := hall _ (le_refl _)
    rw [hhex, hnbits] at hpasses
    exact absurd hpasses (by decide +kernel)
  · rintro ⟨hex, nbits, -, hbridge, -⟩
    rw [hnone] at hbridge
    cases hbridge

/-! ## The difficulty a proof is credited for -/

section credit

variable {π : Type*} (job : PearlJob) (pool : PearlPool π) (worker : WorkerDifficulty)
  (template : GatewayTemplate) (plainProofBase64 : List Char)

/-- A proof that only verifies at the previous difficulty is credited that, and the current
difficulty is credited only to proofs that verify at it. -/
def CreditsByTarget (previous : ℚ) : Prop :=
  ∀ plainProof, deserializePlainProof pool.packages plainProofBase64 = .ok plainProof →
    (verifies pool.packages template previous plainProof = true →
      verifies pool.packages template worker.difficulty plainProof = false →
        ∃ result, job.processShare pool worker (some template) plainProofBase64 = .ok result ∧
          result.1.difficulty = previous) ∧
    ∀ result, job.processShare pool worker (some template) plainProofBase64 = .ok result →
      result.1.difficulty = worker.difficulty →
        verifies pool.packages template worker.difficulty plainProof = true

variable {job pool worker template plainProofBase64} in
theorem verifies_of_credited {plainProof : π} {result : MinedShare × Option (List Char)}
    (hproof : deserializePlainProof pool.packages plainProofBase64 = .ok plainProof)
    (hresult : job.processShare pool worker (some template) plainProofBase64 = .ok result) :
    verifies pool.packages template worker.difficulty plainProof = true := by
  obtain ⟨stored, verified, hstored, hsame, hverifies⟩ :=
    PearlJob.verifies_of_processShare hresult
  obtain rfl := Option.some.inj hstored
  obtain rfl := Except.ok.inj (hproof.symm.trans hsame)
  exact hverifies

/-- The proof has to verify at the current difficulty, whatever the previous one is. -/
theorem creditsByTarget_iff (previous : ℚ) :
    CreditsByTarget job pool worker template plainProofBase64 previous ↔
      ¬ ∃ plainProof, deserializePlainProof pool.packages plainProofBase64 = .ok plainProof ∧
        verifies pool.packages template previous plainProof = true ∧
        verifies pool.packages template worker.difficulty plainProof = false := by
  constructor
  · rintro hcredits ⟨plainProof, hproof, hprevious, hnot⟩
    obtain ⟨result, hresult, -⟩ := (hcredits plainProof hproof).1 hprevious hnot
    have hcurrent := verifies_of_credited hproof hresult
    exact absurd hcurrent (Bool.eq_false_iff.mp hnot)
  · intro hnone plainProof hproof
    constructor
    · intro hprevious hnot
      exact absurd ⟨plainProof, hproof, hprevious, hnot⟩ hnone
    · intro result hresult _
      exact verifies_of_credited hproof hresult

end credit

namespace Raised

/-- Packages whose proofs are hashes. -/
def packages : PearlPackages ℕ where
  fromGetBlockTemplate _ := .error ""
  fromBase64 text := if text = "AQ==".toList then .ok diff1Target else .error "invalid length"
  verifyPlainProof _ _ hash nbits := (hash ≤ (nbits.map bitsToTarget).getD 0, "")
  generateBlock _ _ := .error ""

def pool : PearlPool ℕ where
  packages
  doubleToString _ := ""

def job : PearlJob :=
  PearlJob.init { height := 1, previousBlockHash := [], networkDifficulty := 1 } []

def template : GatewayTemplate where
  incompleteHeader := []
  requiredCertVersion := 1
  target := 1

/-- A worker whose difficulty has been raised from 1 to 2. -/
def worker : WorkerDifficulty where
  difficulty := 2
  varDiffLastUpdate := some 0
  previousDifficulty := some 1

end Raised

open Raised in
/-- A proof of the previous difficulty is refused. -/
theorem not_creditsByTarget : ¬ CreditsByTarget job pool worker template "AQ==".toList 1 := by
  intro hcredits
  have hproof : deserializePlainProof pool.packages "AQ==".toList = .ok diff1Target := by
    decide +kernel
  have hnot : verifies pool.packages template worker.difficulty diff1Target = false := by
    decide +kernel
  obtain ⟨result, hresult, -⟩ := (hcredits diff1Target hproof).1 (by decide +kernel) hnot
  have hcurrent := verifies_of_credited hproof hresult
  exact absurd hcurrent (Bool.eq_false_iff.mp hnot)

end Miningcore.Pearl
