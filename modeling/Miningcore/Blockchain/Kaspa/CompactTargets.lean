import Mathlib.Algebra.Order.Field.Basic
import Mathlib.Algebra.Order.Ring.Rat
import Mathlib.Data.Nat.Bitwise
import Mathlib.Data.Nat.Size
import Mathlib.Data.UInt
import Mathlib.Tactic.NormNum
import Mathlib.Tactic.Ring
import Miningcore.Foundation.CompactForm

/-!
# Compact targets

A target is stored in 32 bits: an exponent of 256 in the highest byte, a sign, and a mantissa
of 23 bits. A number is taken apart by the bytes of its signed form, whose highest bit is the
sign as well.

## Implementation notes

`none` is the exception of the explicit conversion to an unsigned number.
-/

namespace Miningcore.Kaspa

open Foundation

namespace Compact

variable (compact : UInt32)

def mantissa : UInt32 := compact &&& 0x007FFFFF

def isNegative : Bool := compact &&& 0x00800000 != 0

def exponent : UInt32 := compact >>> 24

end Compact

open Miningcore.Kaspa.Compact

def compactToBig (compact : UInt32) : ℤ :=
  let result : ℤ :=
    if exponent compact ≤ 3 then (mantissa compact >>> (8 * (3 - exponent compact))).toNat
    else ((mantissa compact).toNat <<< (8 * (exponent compact - 3)).toNat : ℕ)
  if isNegative compact then -result else result

/-- The number of bytes in the shortest signed form. -/
def byteArrayLength : ℤ → ℕ
  | .ofNat n => Nat.size n / 8 + 1
  | .negSucc n => Nat.size n / 8 + 1

/-- An explicit conversion, which throws when the number does not fit. -/
def toUInt (n : ℤ) : Option UInt32 :=
  if 0 ≤ n ∧ n < 2 ^ 32 then some (UInt32.ofNat n.toNat) else none

def bigToCompact (n : ℤ) : Option UInt32 :=
  if n = 0 then some 0
  else do
    let exponent := byteArrayLength n
    let mantissa ←
      if exponent ≤ 3 then (toUInt n).map fun mantissa =>
        mantissa <<< UInt32.ofNat (8 * (3 - exponent))
      else toUInt (n.tdiv (256 ^ (exponent - 3)))
    let (mantissa, exponent) :=
      if mantissa &&& 0x00800000 ≠ 0 then (mantissa >>> 8, exponent + 1)
      else (mantissa, exponent)
    let compact := UInt32.ofNat exponent <<< 24 ||| mantissa
    some (if n < 0 then compact ||| 0x00800000 else compact)

namespace Compact

variable {compact compact' : UInt32}

/-- The mantissa is not zero, and its highest byte is only where the next one begins with a bit
that would be the sign. -/
structure IsCanonical (compact : UInt32) : Prop where
  mantissa_ne_zero : mantissa compact ≠ 0
  highest_byte : mantissa compact < 2 ^ 16 → 2 ^ 15 ≤ mantissa compact

theorem toNat_mantissa (compact : UInt32) : (mantissa compact).toNat = compact.toNat % 2 ^ 23 := by
  rw [mantissa, UInt32.toNat_and]
  exact Nat.and_two_pow_sub_one_eq_mod compact.toNat 23

theorem toNat_exponent (compact : UInt32) :
    (exponent compact).toNat = compact.toNat / 2 ^ 24 := by
  rw [exponent, UInt32.toNat_shiftRight]
  exact Nat.shiftRight_eq_div_pow compact.toNat 24

theorem isNegative_eq (compact : UInt32) :
    isNegative compact = decide (compact.toNat / 2 ^ 23 % 2 = 1) := by
  have hand : (compact &&& 0x00800000).toNat = (compact.toNat.testBit 23).toNat * 2 ^ 23 := by
    rw [UInt32.toNat_and]
    exact Nat.and_two_pow compact.toNat 23
  rw [← Nat.testBit_eq_decide_div_mod_eq, isNegative, Bool.eq_iff_iff, bne_iff_ne, ne_eq,
    ← UInt32.toNat_inj, hand]
  cases compact.toNat.testBit 23 <;> decide

/-- The mantissa, the sign and the exponent are all there is. -/
theorem ext_iff : compact = compact' ↔ (mantissa compact).toNat = (mantissa compact').toNat ∧
    isNegative compact = isNegative compact' ∧
    (exponent compact).toNat = (exponent compact').toNat := by
  constructor
  · rintro rfl
    exact ⟨rfl, rfl, rfl⟩
  · rintro ⟨hmantissa, hneg, hexponent⟩
    rw [toNat_mantissa, toNat_mantissa] at hmantissa
    rw [toNat_exponent, toNat_exponent] at hexponent
    rw [isNegative_eq, isNegative_eq, decide_eq_decide] at hneg
    apply UInt32.toNat_inj.mp
    omega

/-- The number without its sign. -/
def magnitude (compact : UInt32) : ℕ :=
  (mantissa compact).toNat * 256 ^ (exponent compact).toNat / 256 ^ 3

theorem mantissa_lt (compact : UInt32) : (mantissa compact).toNat < 2 ^ 23 := by
  rw [toNat_mantissa]
  exact Nat.mod_lt _ (Nat.two_pow_pos 23)

theorem exponent_lt (compact : UInt32) : (exponent compact).toNat < 256 := by
  have hlt : compact.toNat < 2 ^ 32 := compact.toNat_lt
  rw [toNat_exponent]
  omega

end Compact

theorem toNat_mul_sub {low high : UInt32} (hle : low ≤ high) (hhigh : high.toNat < 256) :
    (8 * (high - low)).toNat = 8 * (high.toNat - low.toNat) := by
  rw [UInt32.toNat_mul, UInt32.toNat_sub_of_le _ _ hle]
  apply Nat.mod_eq_of_lt
  calc 8 * (high.toNat - low.toNat) ≤ 8 * 256 := Nat.mul_le_mul_left 8 (by omega)
    _ < 2 ^ 32 := by decide

theorem toNat_shiftRight_eq_magnitude (hle : exponent compact ≤ 3) :
    (mantissa compact >>> (8 * (3 - exponent compact))).toNat = magnitude compact := by
  have hle' : (exponent compact).toNat ≤ 3 := UInt32.le_iff_toNat_le.mp hle
  have hmod : 8 * (3 - (exponent compact).toNat) % 32 = 8 * (3 - (exponent compact).toNat) :=
    Nat.mod_eq_of_lt (by omega)
  have hpow : 256 ^ (3 - (exponent compact).toNat) * 256 ^ (exponent compact).toNat = 256 ^ 3 := by
    rw [← pow_add, Nat.sub_add_cancel hle']
  calc (mantissa compact >>> (8 * (3 - exponent compact))).toNat
      = (mantissa compact).toNat / 2 ^ (8 * (3 - (exponent compact).toNat)) := by
        rw [UInt32.toNat_shiftRight, toNat_mul_sub hle (by decide), Nat.shiftRight_eq_div_pow]
        exact congrArg (fun n => (mantissa compact).toNat / 2 ^ n) hmod
    _ = (mantissa compact).toNat / 256 ^ (3 - (exponent compact).toNat) := by
        rw [pow_mul]
        rfl
    _ = magnitude compact := by
        rw [magnitude, ← hpow, Nat.mul_div_mul_right _ _ (Nat.pow_pos (by decide))]

theorem shiftLeft_eq_magnitude (hlt : 3 < exponent compact) :
    (mantissa compact).toNat <<< (8 * (exponent compact - 3)).toNat = magnitude compact := by
  have hlt' : 3 < (exponent compact).toNat := UInt32.lt_iff_toNat_lt.mp hlt
  have hpow : 256 ^ (exponent compact).toNat = 256 ^ ((exponent compact).toNat - 3) * 256 ^ 3 := by
    rw [← pow_add, Nat.sub_add_cancel hlt'.le]
  calc (mantissa compact).toNat <<< (8 * (exponent compact - 3)).toNat
      = (mantissa compact).toNat * 2 ^ (8 * ((exponent compact).toNat - 3)) := by
        rw [toNat_mul_sub (UInt32.le_of_lt hlt) (exponent_lt compact), Nat.shiftLeft_eq]
        rfl
    _ = (mantissa compact).toNat * 256 ^ ((exponent compact).toNat - 3) := by
        rw [pow_mul]
        rfl
    _ = magnitude compact := by
        rw [magnitude, hpow, ← Nat.mul_assoc, Nat.mul_div_cancel _ (Nat.pow_pos (by decide))]

theorem compactToBig_eq (compact : UInt32) :
    compactToBig compact =
      if isNegative compact then -(magnitude compact : ℤ) else magnitude compact := by
  unfold compactToBig
  by_cases hle : exponent compact ≤ 3
  · rw [if_pos hle, toNat_shiftRight_eq_magnitude hle]
  · rw [if_neg hle, shiftLeft_eq_magnitude (UInt32.not_le.mp hle)]

theorem toUInt_natCast {n : ℕ} (hlt : n < 2 ^ 32) : toUInt n = some (UInt32.ofNat n) := by
  rw [toUInt, if_pos ⟨Int.natCast_nonneg n, by exact_mod_cast hlt⟩, Int.toNat_natCast]

theorem toUInt_of_neg {n : ℤ} (hneg : n < 0) : toUInt n = none :=
  if_neg fun hfits => absurd hfits.1 (not_le.mpr hneg)

/-- The three highest bytes of the signed form, without the sign. -/
def highestBytes (n : ℕ) : ℕ := n * 256 ^ 3 / 256 ^ byteArrayLength n

theorem highestBytes_lt (n : ℕ) : highestBytes n < 2 ^ 23 := by
  apply Nat.div_lt_of_lt_mul
  calc n * 256 ^ 3
      < 2 ^ Nat.size n * 256 ^ 3 := Nat.mul_lt_mul_of_pos_right (Nat.lt_size_self n) (by decide)
    _ ≤ 2 ^ (8 * (Nat.size n / 8) + 7) * 256 ^ 3 :=
      Nat.mul_le_mul_right _ (Nat.pow_le_pow_right two_pos (by omega))
    _ = 256 ^ (Nat.size n / 8 + 1) * 2 ^ 23 := by
      rw [pow_add, pow_mul, pow_succ]
      ring

/-- What is left of a short number is filled with zeros. -/
theorem highestBytes_of_le {n : ℕ} (hle : byteArrayLength n ≤ 3) :
    highestBytes n = n * 256 ^ (3 - byteArrayLength n) := by
  have hpow : 256 ^ 3 = 256 ^ (3 - byteArrayLength n) * 256 ^ byteArrayLength n := by
    rw [← pow_add, Nat.sub_add_cancel hle]
  rw [highestBytes, hpow, ← Nat.mul_assoc, Nat.mul_div_cancel _ (Nat.pow_pos (by decide))]

theorem highestBytes_of_lt {n : ℕ} (hlt : 3 < byteArrayLength n) :
    highestBytes n = n / 256 ^ (byteArrayLength n - 3) := by
  have hpow : 256 ^ byteArrayLength n = 256 ^ (byteArrayLength n - 3) * 256 ^ 3 := by
    rw [← pow_add, Nat.sub_add_cancel hlt.le]
  rw [highestBytes, hpow, Nat.mul_div_mul_right _ _ (by decide)]

theorem highestBytes_lt_size (n : ℕ) : highestBytes n < UInt32.size :=
  (highestBytes_lt n).trans (by decide)

theorem toUInt_shiftLeft {n : ℕ} (hle : byteArrayLength n ≤ 3) :
    ((toUInt n).map fun mantissa => mantissa <<< UInt32.ofNat (8 * (3 - byteArrayLength n))) =
      some (UInt32.ofNat (highestBytes n)) := by
  have hlt := highestBytes_lt_size n
  have hbound : n < UInt32.size := by
    calc n ≤ highestBytes n := by
          rw [highestBytes_of_le hle]
          exact Nat.le_mul_of_pos_right n (Nat.pow_pos (by decide))
      _ < UInt32.size := hlt
  have hsmall : 8 * (3 - byteArrayLength n) < 32 := by
    have hpos : 0 < byteArrayLength n := Nat.succ_pos _
    omega
  have hshift : (UInt32.ofNat (8 * (3 - byteArrayLength n))).toNat % 32 =
      8 * (3 - byteArrayLength n) := by
    rw [UInt32.toNat_ofNat_of_lt' (hsmall.trans (by decide))]
    exact Nat.mod_eq_of_lt hsmall
  rw [toUInt_natCast hbound, Option.map_some]
  congr 1
  apply UInt32.toNat_inj.mp
  calc (UInt32.ofNat n <<< UInt32.ofNat (8 * (3 - byteArrayLength n))).toNat
      = n * 256 ^ (3 - byteArrayLength n) % UInt32.size := by
        rw [UInt32.toNat_shiftLeft, hshift, UInt32.toNat_ofNat_of_lt' hbound, Nat.shiftLeft_eq,
          pow_mul]
        rfl
    _ = (UInt32.ofNat (highestBytes n)).toNat := by
        rw [← highestBytes_of_le hle, Nat.mod_eq_of_lt hlt, UInt32.toNat_ofNat_of_lt' hlt]

theorem toUInt_tdiv {n : ℕ} (hlt : 3 < byteArrayLength n) :
    toUInt ((n : ℤ).tdiv (256 ^ (byteArrayLength n - 3))) =
      some (UInt32.ofNat (highestBytes n)) := by
  have hdiv : (n : ℤ).tdiv (256 ^ (byteArrayLength n - 3)) = (highestBytes n : ℕ) := by
    rw [highestBytes_of_lt hlt]
    exact_mod_cast Int.ofNat_tdiv n (256 ^ (byteArrayLength n - 3))
  rw [hdiv, toUInt_natCast (highestBytes_lt_size n)]

namespace Compact

/-- The compact form of an exponent and a mantissa, of which the exponent keeps one byte. -/
def pack (exponent mantissa : ℕ) : UInt32 := UInt32.ofNat exponent <<< 24 ||| UInt32.ofNat mantissa

theorem toNat_pack {exponent mantissa : ℕ} (hlt : mantissa < 2 ^ 23) :
    (pack exponent mantissa).toNat = exponent % 256 * 2 ^ 24 + mantissa := by
  have hhigh : (UInt32.ofNat exponent <<< 24).toNat = (exponent % 256) <<< 24 := by
    rw [UInt32.toNat_shiftLeft, UInt32.toNat_ofNat', Nat.shiftLeft_eq, Nat.shiftLeft_eq]
    change exponent % 2 ^ 32 * 2 ^ 24 % 2 ^ 32 = exponent % 256 * 2 ^ 24
    omega
  rw [pack, UInt32.toNat_or, hhigh, UInt32.toNat_ofNat_of_lt' (hlt.trans (by decide)),
    ← Nat.shiftLeft_add_eq_or_of_lt (hlt.trans (by decide)), Nat.shiftLeft_eq]

theorem toNat_mantissa_pack {exponent n : ℕ} (hlt : n < 2 ^ 23) :
    (mantissa (pack exponent n)).toNat = n := by
  rw [toNat_mantissa, toNat_pack hlt]
  omega

theorem isNegative_pack {exponent mantissa : ℕ} (hlt : mantissa < 2 ^ 23) :
    isNegative (pack exponent mantissa) = false := by
  rw [isNegative_eq, toNat_pack hlt]
  apply decide_eq_false
  omega

theorem toNat_exponent_pack {n mantissa : ℕ} (hlt : mantissa < 2 ^ 23) :
    (exponent (pack n mantissa)).toNat = n % 256 := by
  rw [toNat_exponent, toNat_pack hlt]
  omega

end Compact

/-- A positive number keeps its three highest bytes, with a sign that is clear. -/
theorem bigToCompact_of_pos {n : ℕ} (hpos : 0 < n) :
    bigToCompact n = some (pack (byteArrayLength n) (highestBytes n)) := by
  have hlt := highestBytes_lt n
  have hsign : ¬ UInt32.ofNat (highestBytes n) &&& 0x00800000 ≠ 0 := by
    have hclear : isNegative (UInt32.ofNat (highestBytes n)) = false := by
      rw [isNegative_eq, UInt32.toNat_ofNat_of_lt' (highestBytes_lt_size n)]
      apply decide_eq_false
      omega
    intro hset
    rw [isNegative, bne_eq_false_iff_eq] at hclear
    exact hset hclear
  have hnonneg : ¬ (n : ℤ) < 0 := by omega
  have hne : (n : ℤ) ≠ 0 := by omega
  rw [bigToCompact, if_neg hne]
  by_cases hle : byteArrayLength n ≤ 3
  · simp only [if_pos hle, toUInt_shiftLeft hle, Option.bind_eq_bind, Option.bind_some,
      if_neg hsign, if_neg hnonneg]
    rfl
  · simp only [if_neg hle, toUInt_tdiv (not_le.mp hle), Option.bind_eq_bind, Option.bind_some,
      if_neg hsign, if_neg hnonneg]
    rfl

/-- Of a long negative number, the highest bytes are left with their sign. -/
theorem tdiv_neg_of_lt {n : ℕ} (hlt : 3 < byteArrayLength (Int.negSucc n)) :
    (Int.negSucc n).tdiv (256 ^ (byteArrayLength (Int.negSucc n) - 3)) < 0 := by
  have hpow : 256 ^ (byteArrayLength (Int.negSucc n) - 3) ≤ n + 1 := by
    calc 256 ^ (byteArrayLength (Int.negSucc n) - 3)
        = 2 ^ (8 * (Nat.size n / 8 + 1 - 3)) := (pow_mul 2 8 _).symm
      _ ≤ n := Nat.lt_size.mp (by change 3 < Nat.size n / 8 + 1 at hlt; omega)
      _ ≤ n + 1 := Nat.le_succ n
  have hdiv : (Int.negSucc n).tdiv (256 ^ (byteArrayLength (Int.negSucc n) - 3)) =
      -(((n + 1) / 256 ^ (byteArrayLength (Int.negSucc n) - 3) : ℕ) : ℤ) := by
    have hcast : (256 : ℤ) ^ (byteArrayLength (Int.negSucc n) - 3) =
        (256 ^ (byteArrayLength (Int.negSucc n) - 3) : ℕ) := by
      push_cast
      rfl
    rw [hcast]
    rfl
  have hpos := Nat.div_pos hpow (Nat.pow_pos (by decide))
  rw [hdiv]
  omega

/-- The sign is never stored: the conversion throws before. -/
theorem bigToCompact_of_neg {n : ℤ} (hneg : n < 0) : bigToCompact n = none := by
  rw [bigToCompact, if_neg hneg.ne]
  by_cases hle : byteArrayLength n ≤ 3
  · simp only [if_pos hle, toUInt_of_neg hneg, Option.map_none, Option.bind_eq_bind,
      Option.bind_none]
  · cases n with
    | ofNat n => exact absurd hneg (not_lt.mpr (Int.natCast_nonneg n))
    | negSucc n =>
        simp only [if_neg hle, toUInt_of_neg (tdiv_neg_of_lt (not_le.mp hle)),
          Option.bind_eq_bind, Option.bind_none]

theorem magnitude_mul_le (compact : UInt32) :
    magnitude compact * 256 ^ 3 ≤ (mantissa compact).toNat * 256 ^ (exponent compact).toNat :=
  Nat.div_mul_le_self _ _

namespace Compact.IsCanonical

variable {compact : UInt32} (h : IsCanonical compact)

include h

theorem two_pow_le_mantissa : 2 ^ 15 ≤ (mantissa compact).toNat := by
  by_cases hlt : mantissa compact < 2 ^ 16
  · exact UInt32.le_iff_toNat_le.mp (h.highest_byte hlt)
  · have hle : 2 ^ 16 ≤ (mantissa compact).toNat :=
      UInt32.le_iff_toNat_le.mp (UInt32.not_lt.mp hlt)
    omega

theorem size_mantissa : Nat.size (mantissa compact).toNat / 8 = 2 := by
  have hlow : 15 < Nat.size (mantissa compact).toNat := Nat.lt_size.mpr h.two_pow_le_mantissa
  have hhigh : Nat.size (mantissa compact).toNat ≤ 23 := Nat.size_le.mpr (mantissa_lt compact)
  omega

theorem ne_zero : compact ≠ 0 := by
  rintro rfl
  exact h.mantissa_ne_zero rfl

end Compact.IsCanonical

/-- With the lowest bytes of the mantissa zero, there is nothing to cut off. -/
theorem magnitude_mul_eq {compact : UInt32}
    (hdvd : 256 ^ (3 - (exponent compact).toNat) ∣ (mantissa compact).toNat) :
    magnitude compact * 256 ^ 3 = (mantissa compact).toNat * 256 ^ (exponent compact).toNat := by
  apply Nat.div_mul_cancel
  calc (256 ^ 3 : ℕ) ∣ 256 ^ (3 - (exponent compact).toNat) * 256 ^ (exponent compact).toNat := by
        rw [← pow_add]
        exact Nat.pow_dvd_pow 256 (by omega)
    _ ∣ (mantissa compact).toNat * 256 ^ (exponent compact).toNat := Nat.mul_dvd_mul_right hdvd _

theorem size_mul_pow {n : ℕ} (hpos : 0 < n) (count : ℕ) :
    Nat.size (n * 256 ^ count) = Nat.size n + 8 * count := by
  have hpow : n * 256 ^ count = n <<< (8 * count) := by
    rw [Nat.shiftLeft_eq, pow_mul]
    rfl
  rw [hpow, Nat.size_shiftLeft hpos.ne']

namespace Compact.IsCanonical

variable {compact : UInt32} (h : IsCanonical compact)

include h

theorem magnitude_pos
    (hdvd : 256 ^ (3 - (exponent compact).toNat) ∣ (mantissa compact).toNat) :
    0 < magnitude compact := by
  apply Nat.pos_of_ne_zero
  intro hzero
  have heq := magnitude_mul_eq hdvd
  have hmantissa := h.two_pow_le_mantissa
  have hpos : 0 < (mantissa compact).toNat * 256 ^ (exponent compact).toNat :=
    Nat.mul_pos (by omega) (Nat.pow_pos (by decide))
  rw [hzero, Nat.zero_mul] at heq
  omega

theorem byteArrayLength_magnitude
    (hdvd : 256 ^ (3 - (exponent compact).toNat) ∣ (mantissa compact).toNat) :
    byteArrayLength (magnitude compact) = (exponent compact).toNat := by
  have hmantissa := h.two_pow_le_mantissa
  have hsize := congrArg Nat.size (magnitude_mul_eq hdvd)
  rw [size_mul_pow (h.magnitude_pos hdvd), size_mul_pow (by omega)] at hsize
  have hbytes := h.size_mantissa
  change Nat.size (magnitude compact) / 8 + 1 = (exponent compact).toNat
  omega

theorem bigToCompact_magnitude (hneg : isNegative compact = false)
    (hdvd : 256 ^ (3 - (exponent compact).toNat) ∣ (mantissa compact).toNat) :
    bigToCompact (magnitude compact) = some compact := by
  have hlength := h.byteArrayLength_magnitude hdvd
  have hbytes : highestBytes (magnitude compact) = (mantissa compact).toNat := by
    rw [highestBytes, hlength, magnitude_mul_eq hdvd]
    exact Nat.mul_div_cancel _ (Nat.pow_pos (by decide))
  have hlt := mantissa_lt compact
  rw [bigToCompact_of_pos (h.magnitude_pos hdvd), hbytes, hlength]
  congr 1
  apply Compact.ext_iff.mpr
  refine ⟨toNat_mantissa_pack hlt, (isNegative_pack hlt).trans hneg.symm, ?_⟩
  rw [toNat_exponent_pack hlt]
  exact Nat.mod_eq_of_lt (exponent_lt compact)

/-- Below an exponent of 3, the mantissa that comes back is filled with zeros. -/
theorem dvd_of_bigToCompact (hsome : bigToCompact (magnitude compact) = some compact) :
    256 ^ (3 - (exponent compact).toNat) ∣ (mantissa compact).toNat := by
  by_cases hle : 3 ≤ (exponent compact).toNat
  · rw [Nat.sub_eq_zero_of_le hle, pow_zero]
    exact Nat.one_dvd _
  obtain hzero | hpos := Nat.eq_zero_or_pos (magnitude compact)
  · rw [hzero] at hsome
    exact absurd (Option.some.inj hsome).symm h.ne_zero
  · have hsmall : magnitude compact * 256 ^ 3 < 2 ^ 23 * 256 ^ 2 :=
      calc magnitude compact * 256 ^ 3
          ≤ (mantissa compact).toNat * 256 ^ (exponent compact).toNat := magnitude_mul_le compact
        _ ≤ (mantissa compact).toNat * 256 ^ 2 :=
          Nat.mul_le_mul_left _ (Nat.pow_le_pow_right (by decide) (by omega))
        _ < 2 ^ 23 * 256 ^ 2 := Nat.mul_lt_mul_of_pos_right (mantissa_lt compact) (by decide)
    have hsize : Nat.size (magnitude compact) ≤ 15 := Nat.size_le.mpr (by omega)
    have hlength : byteArrayLength (magnitude compact) ≤ 3 := by
      change Nat.size (magnitude compact) / 8 + 1 ≤ 3
      omega
    have hpack := Option.some.inj ((bigToCompact_of_pos hpos).symm.trans hsome)
    have hlt := highestBytes_lt (magnitude compact)
    have hmantissa := (Compact.ext_iff.mp hpack).1
    have hexponent := (Compact.ext_iff.mp hpack).2.2
    rw [toNat_mantissa_pack hlt, highestBytes_of_le hlength] at hmantissa
    rw [toNat_exponent_pack hlt, Nat.mod_eq_of_lt (by omega)] at hexponent
    rw [← hmantissa, hexponent]
    exact Nat.dvd_mul_left _ _

end Compact.IsCanonical

/-- A canonical value comes back if and only if it has no sign and no byte of it is cut off. -/
theorem bigToCompact_compactToBig_iff {compact : UInt32} (h : IsCanonical compact) :
    bigToCompact (compactToBig compact) = some compact ↔ isNegative compact = false ∧
      256 ^ (3 - (exponent compact).toNat) ∣ (mantissa compact).toNat := by
  rw [compactToBig_eq]
  cases hneg : isNegative compact with
  | false =>
      rw [if_neg Bool.false_ne_true]
      constructor
      · intro hsome
        exact ⟨rfl, h.dvd_of_bigToCompact hsome⟩
      · rintro ⟨-, hdvd⟩
        exact h.bigToCompact_magnitude hneg hdvd
  | true =>
      rw [if_pos rfl]
      apply iff_of_false
      · intro hsome
        obtain hzero | hpos := Nat.eq_zero_or_pos (magnitude compact)
        · rw [hzero] at hsome
          exact h.ne_zero (Option.some.inj hsome).symm
        · rw [bigToCompact_of_neg (by omega)] at hsome
          exact Option.some_ne_none compact hsome.symm
      · rintro ⟨hfalse, -⟩
        exact Bool.noConfusion hfalse

example : bigToCompact (compactToBig 0x1d00ffff) = some 0x1d00ffff := by decide +kernel

-- Two of the three bytes are cut off.
example : bigToCompact (compactToBig 0x01123456) = some 0x01120000 := by decide +kernel

theorem highestBytes_mul_le (n : ℕ) :
    highestBytes n * 256 ^ byteArrayLength n ≤ n * 256 ^ 3 := Nat.div_mul_le_self _ _

/-- With an exponent of one byte, a number keeps 23 bits in its highest three bytes. -/
theorem magnitude_pack {n : ℕ} (hlt : byteArrayLength n < 256) :
    magnitude (pack (byteArrayLength n) (highestBytes n)) = cutOff 256 (Nat.size n / 8 - 2) n := by
  have hbytes := highestBytes_lt n
  have hscale : Nat.size n / 8 - 2 = byteArrayLength n - 3 := by
    change Nat.size n / 8 - 2 = Nat.size n / 8 + 1 - 3
    omega
  rw [magnitude, toNat_mantissa_pack hbytes, toNat_exponent_pack hbytes, Nat.mod_eq_of_lt hlt,
    hscale, cutOff]
  by_cases hle : byteArrayLength n ≤ 3
  · rw [highestBytes_of_le hle, Nat.mul_assoc, ← pow_add, Nat.sub_add_cancel hle,
      Nat.mul_div_cancel _ (by decide), Nat.sub_eq_zero_of_le hle, pow_zero, Nat.div_one,
      Nat.mul_one]
  · have hgt : 3 < byteArrayLength n := not_le.mp hle
    have hpow : 256 ^ byteArrayLength n = 256 ^ (byteArrayLength n - 3) * 256 ^ 3 := by
      rw [← pow_add, Nat.sub_add_cancel hgt.le]
    rw [highestBytes_of_lt hgt, hpow, ← Nat.mul_assoc, Nat.mul_div_cancel _ (by decide)]

/-- With more bytes than the exponent can count, next to nothing of the number is left. -/
theorem magnitude_pack_mul_le {n : ℕ} (hle : 256 ≤ byteArrayLength n) :
    magnitude (pack (byteArrayLength n) (highestBytes n)) * 256 ^ 256 ≤ n := by
  have hbytes := highestBytes_lt n
  have hexponent : byteArrayLength n % 256 + 256 ≤ byteArrayLength n := by
    omega
  have hmagnitude := magnitude_mul_le (pack (byteArrayLength n) (highestBytes n))
  rw [toNat_mantissa_pack hbytes, toNat_exponent_pack hbytes] at hmagnitude
  apply Nat.le_of_mul_le_mul_right _ (show 0 < 256 ^ 3 by decide)
  calc magnitude (pack (byteArrayLength n) (highestBytes n)) * 256 ^ 256 * 256 ^ 3
      = magnitude (pack (byteArrayLength n) (highestBytes n)) * 256 ^ 3 * 256 ^ 256 :=
        Nat.mul_right_comm _ _ _
    _ ≤ highestBytes n * 256 ^ (byteArrayLength n % 256) * 256 ^ 256 :=
      Nat.mul_le_mul_right _ hmagnitude
    _ = highestBytes n * 256 ^ (byteArrayLength n % 256 + 256) := by
      rw [Nat.mul_assoc, ← pow_add]
    _ ≤ highestBytes n * 256 ^ byteArrayLength n :=
      Nat.mul_le_mul_left _ (Nat.pow_le_pow_right (by decide) hexponent)
    _ ≤ n * 256 ^ 3 := highestBytes_mul_le n

theorem compactToBig_pack {exponent mantissa : ℕ} (hlt : mantissa < 2 ^ 23) :
    compactToBig (pack exponent mantissa) = magnitude (pack exponent mantissa) := by
  rw [compactToBig_eq, isNegative_pack hlt, if_neg Bool.false_ne_true]

/-- There and back, a number does not grow, and loses less than the part of `2 ^ 15`. -/
def Approximates (n : ℕ) : Prop :=
  ∃ compact, bigToCompact n = some compact ∧ compactToBig compact ≤ n ∧
    ((n : ℚ) - compactToBig compact) / n < 1 / 2 ^ 15

theorem relative_error_lt_iff {n value : ℕ} (hpos : 0 < n) (hle : value ≤ n) :
    ((n : ℚ) - (value : ℤ)) / n < 1 / 2 ^ 15 ↔ (n - value) * 2 ^ 15 < n := by
  have hn : (0 : ℚ) < n := by exact_mod_cast hpos
  have hcast : (n : ℚ) - (value : ℤ) = (n - value : ℕ) := by
    rw [Nat.cast_sub hle, Int.cast_natCast]
  rw [hcast, div_lt_div_iff₀ hn (by norm_num), one_mul]
  exact_mod_cast Iff.rfl

theorem approximates_of_pos {n : ℕ} (hpos : 0 < n) :
    Approximates n ↔ magnitude (pack (byteArrayLength n) (highestBytes n)) ≤ n ∧
      (n - magnitude (pack (byteArrayLength n) (highestBytes n))) * 2 ^ 15 < n := by
  have hback := @compactToBig_pack (byteArrayLength n) _ (highestBytes_lt n)
  constructor
  · rintro ⟨compact, hsome, hle, herror⟩
    obtain rfl := Option.some.inj ((bigToCompact_of_pos hpos).symm.trans hsome)
    rw [hback] at hle herror
    have hle' := Int.ofNat_le.mp hle
    exact ⟨hle', (relative_error_lt_iff hpos hle').mp herror⟩
  · rintro ⟨hle, herror⟩
    refine ⟨_, bigToCompact_of_pos hpos, ?_, ?_⟩
    · rw [hback]
      exact Int.ofNat_le.mpr hle
    · rw [hback]
      exact (relative_error_lt_iff hpos hle).mpr herror

theorem size_le_iff {n count : ℕ} : Nat.size n ≤ count ↔ n < 2 ^ count := Nat.size_le

theorem byteArrayLength_lt_iff {n : ℕ} : byteArrayLength n < 256 ↔ n < 2 ^ 2039 := by
  have hlength : byteArrayLength n < 256 ↔ Nat.size n ≤ 2039 := by
    change Nat.size n / 8 + 1 < 256 ↔ Nat.size n ≤ 2039
    omega
  exact hlength.trans size_le_iff

theorem approximates_zero : Approximates 0 :=
  ⟨0, rfl, le_refl _, by norm_num⟩

/-- A number is approximated as long as the exponent can count its bytes. -/
theorem approximates_iff (n : ℕ) : Approximates n ↔ n < 2 ^ 2039 := by
  obtain rfl | hpos := Nat.eq_zero_or_pos n
  · exact iff_of_true approximates_zero (pow_pos two_pos 2039)
  rw [approximates_of_pos hpos, ← byteArrayLength_lt_iff]
  by_cases hlt : byteArrayLength n < 256
  · rw [magnitude_pack hlt]
    apply iff_of_true _ hlt
    refine ⟨cutOff_le _ _ _, ?_⟩
    apply Nat.lt_of_mul_lt_mul_right
    calc (n - cutOff 256 (Nat.size n / 8 - 2) n) * 2 ^ 15 * 256
        = (n - cutOff 256 (Nat.size n / 8 - 2) n) * 2 ^ 23 := Nat.mul_assoc _ _ _
      _ < n * 256 := (isScale_size n).sub_cutOff_mul_lt (by decide) hpos
  · apply iff_of_false _ hlt
    rintro ⟨-, herror⟩
    have hhalf : magnitude (pack (byteArrayLength n) (highestBytes n)) * 2 ≤ n :=
      (Nat.mul_le_mul_left _ (by decide)).trans (magnitude_pack_mul_le (not_lt.mp hlt))
    omega

/-- The conversions are right for values without a sign of which no byte is cut off, and for
numbers that the exponent can hold. -/
theorem bigToCompact_compactToBig_and_approximates_iff (compact : UInt32) (n : ℕ) :
    (IsCanonical compact → (bigToCompact (compactToBig compact) = some compact ↔
      isNegative compact = false ∧
        256 ^ (3 - (exponent compact).toNat) ∣ (mantissa compact).toNat)) ∧
    (Approximates n ↔ n < 2 ^ 2039) :=
  ⟨bigToCompact_compactToBig_iff, approximates_iff n⟩

/-- A canonical value with a sign does not come back, as its number does not fit. -/
theorem not_forall_bigToCompact_compactToBig :
    ¬ ((∀ compact, IsCanonical compact → bigToCompact (compactToBig compact) = some compact) ∧
      ∀ n : ℕ, Approximates n) := by
  rintro ⟨hall, -⟩
  have hcanonical : IsCanonical 0x04923456 := ⟨by decide, by decide⟩
  have hback := hall 0x04923456 hcanonical
  have hnone : bigToCompact (compactToBig 0x04923456) = none := by decide +kernel
  rw [hnone] at hback
  exact Option.some_ne_none _ hback.symm

end Miningcore.Kaspa
