import Mathlib.Algebra.Order.Archimedean.Basic
import Mathlib.Algebra.Order.Field.Power
import Mathlib.Data.Rat.Floor
import Miningcore.Foundation.DecimalText
import Miningcore.Foundation.FloatingPoint

/-!
# Printed doubles

A double is printed with the shortest digits that are read as it, and with an exponent when it
is small or large. The exponent from which on there is none is a parameter.

## Implementation notes

Doubles are rationals with a rounding, and their digits a function of them. Rounding leaves
whole numbers as they are up to where an exponent is printed.
-/

namespace Foundation

/-- Significant digits and the exponent of the last one. -/
structure ShortDecimal where
  digits : ℕ
  exponent : ℤ
  not_dvd : ¬ 10 ∣ digits

namespace ShortDecimal

variable (s : ShortDecimal)

def value : ℚ := s.digits * 10 ^ s.exponent

/-- The exponent of the first digit. -/
def leading : ℤ := (Nat.toDigits 10 s.digits).length - 1 + s.exponent

/-- The digits with a point where the exponent says. -/
def positionalText : List Char :=
  if 0 ≤ s.exponent then Nat.toDigits 10 (s.digits * 10 ^ s.exponent.toNat)
  else (Decimal.mk s.digits (-s.exponent).toNat).text

/-- The digits with a point behind the first one, and an exponent of two digits at least. -/
def scientificText : List Char :=
  let mantissa :=
    if s.digits < 10 then Nat.toDigits 10 s.digits
    else (Decimal.mk s.digits ((Nat.toDigits 10 s.digits).length - 1)).text
  let exponent := Nat.toDigits 10 s.leading.natAbs
  mantissa ++ 'E' :: (if s.leading < 0 then '-' else '+') ::
    (List.replicate (2 - exponent.length) '0' ++ exponent)

/-- An exponent is printed below the least one that is not and from 15 on. -/
def text (leastExponent : ℕ) : List Char :=
  if -leastExponent ≤ s.leading ∧ s.leading < 15 then s.positionalText else s.scientificText

variable {s}

theorem digits_pos (s : ShortDecimal) : 0 < s.digits := by
  apply Nat.pos_of_ne_zero
  intro hzero
  exact s.not_dvd (hzero ▸ dvd_zero 10)

theorem value_pos (s : ShortDecimal) : 0 < s.value :=
  mul_pos (Nat.cast_pos.mpr s.digits_pos) (by positivity)

/-- The number is as large as its first digit says. -/
theorem leading_bounds (s : ShortDecimal) :
    (10 : ℚ) ^ s.leading ≤ s.value ∧ s.value < (10 : ℚ) ^ (s.leading + 1) := by
  have hlength := Nat.length_toDigits_pos (b := 10) (n := s.digits)
  have hhigh : s.digits < 10 ^ (Nat.toDigits 10 s.digits).length :=
    (Nat.length_toDigits_le_iff (by decide) hlength).mp le_rfl
  have hlow : 10 ^ ((Nat.toDigits 10 s.digits).length - 1) ≤ s.digits := by
    obtain hone | hmore := Nat.eq_or_lt_of_le hlength
    · rw [← hone, Nat.sub_self, pow_zero]
      exact s.digits_pos
    · have hnot := mt (Nat.length_toDigits_le_iff (n := s.digits) (b := 10) (by decide)
        (Nat.sub_pos_of_lt hmore)).mpr (by omega)
      exact not_lt.mp hnot
  have hpow : (0 : ℚ) < 10 ^ s.exponent := by positivity
  constructor
  · calc (10 : ℚ) ^ s.leading
        = 10 ^ ((Nat.toDigits 10 s.digits).length - 1) * 10 ^ s.exponent := by
          rw [leading, zpow_add₀ (by norm_num), ← zpow_natCast, Nat.cast_sub hlength, Nat.cast_one]
      _ ≤ s.digits * 10 ^ s.exponent :=
          mul_le_mul_of_nonneg_right (by exact_mod_cast hlow) hpow.le
  · calc s.value < (10 : ℚ) ^ (Nat.toDigits 10 s.digits).length * 10 ^ s.exponent :=
          mul_lt_mul_of_pos_right (by exact_mod_cast hhigh) hpow
      _ = 10 ^ (s.leading + 1) := by
          rw [← zpow_natCast, ← zpow_add₀ (by norm_num), leading]
          congr 1
          ring

theorem leading_lt_iff {exponent : ℤ} : s.leading < exponent ↔ s.value < (10 : ℚ) ^ exponent := by
  obtain ⟨hlow, hhigh⟩ := s.leading_bounds
  constructor
  · intro hlt
    exact hhigh.trans_le (zpow_le_zpow_right₀ (by norm_num) hlt)
  · intro hlt
    exact (zpow_lt_zpow_iff_right₀ (by norm_num)).mp (hlow.trans_lt hlt)

theorem le_leading_iff {exponent : ℤ} : exponent ≤ s.leading ↔ (10 : ℚ) ^ exponent ≤ s.value := by
  rw [← not_lt, leading_lt_iff, not_lt]

/-- Decimals of a double without an exponent are few. -/
theorem exponent_bound {leastExponent : ℕ} (hleast : leastExponent ≤ 5)
    (hdigits : s.digits < 10 ^ 17) (hleading : -leastExponent ≤ s.leading) :
    -21 ≤ s.exponent := by
  have hlength : (Nat.toDigits 10 s.digits).length ≤ 17 :=
    (Nat.length_toDigits_le_iff (by decide) (by decide)).mpr hdigits
  rw [leading] at hleading
  omega

theorem value_of_exponent_nonneg (h : 0 ≤ s.exponent) :
    s.value = ((s.digits * 10 ^ s.exponent.toNat : ℕ) : ℚ) := by
  obtain ⟨n, hn⟩ := Int.eq_ofNat_of_zero_le h
  rw [value, hn, Int.toNat_natCast, zpow_natCast]
  push_cast
  rfl

theorem value_of_exponent_neg (h : s.exponent < 0) :
    s.value = (s.digits : ℚ) / ((10 ^ (-s.exponent).toNat : ℕ) : ℚ) := by
  have hexponent : s.exponent = -((-s.exponent).toNat : ℤ) := by omega
  rw [value, div_eq_mul_inv]
  conv_lhs => rw [hexponent]
  rw [zpow_neg, zpow_natCast]
  push_cast
  rfl

/-- A number without the zeros behind its digits. -/
def strip (n : ℕ) (exponent : ℤ) (hpos : 0 < n) : ShortDecimal :=
  if h : 10 ∣ n then strip (n / 10) (exponent + 1) (Nat.div_pos (Nat.le_of_dvd hpos h) (by decide))
  else ⟨n, exponent, h⟩
termination_by n
decreasing_by exact Nat.div_lt_self hpos (by decide)

theorem value_strip (n : ℕ) (exponent : ℤ) (hpos : 0 < n) :
    (strip n exponent hpos).value = n * 10 ^ exponent := by
  fun_induction strip n exponent hpos with
  | case1 n exponent hpos hdvd ih =>
      calc (strip (n / 10) (exponent + 1) _).value
          = ((n / 10 : ℕ) : ℚ) * 10 ^ (exponent + 1) := ih
        _ = ((n / 10 : ℕ) : ℚ) * 10 * 10 ^ exponent := by
            rw [zpow_add_one₀ (by norm_num)]
            ring
        _ = n * 10 ^ exponent := by
            congr 1
            exact_mod_cast Nat.div_mul_cancel hdvd
  | case2 n exponent hpos hnot => rfl

theorem digits_strip_le (n : ℕ) (exponent : ℤ) (hpos : 0 < n) :
    (strip n exponent hpos).digits ≤ n := by
  fun_induction strip n exponent hpos with
  | case1 n exponent hpos hdvd ih => exact ih.trans (Nat.div_le_self n 10)
  | case2 n exponent hpos hnot => exact le_rfl

end ShortDecimal

/-- How doubles are rounded and printed. -/
structure DoubleFormat extends Rounding where
  maxValue : ℚ
  /-- The shortest decimal that is read as a double. -/
  shortest : ℚ → ShortDecimal
  leastExponent : ℕ
  leastExponent_le : leastExponent ≤ 5
  round_natCast (n : ℕ) : n ≤ 10 ^ 15 → round n = n
  round_inv_pos (x : ℚ) : 0 < x → x ≤ maxValue → 0 < round x⁻¹
  round_shortest (x : ℚ) : 0 < x → round x = x → round (shortest x).value = x
  digits_lt (x : ℚ) : 0 < x → round x = x → (shortest x).digits < 10 ^ 17
  shortest_natCast (n : ℕ) : 0 < n → n ≤ 10 ^ 15 → (shortest n).value = n

namespace DoubleFormat

section whole

variable (format : DoubleFormat) {x : ℚ} (hpos : 0 < x) (hround : format.round x = x)

include hpos hround

/-- A number and its decimals have the same whole part. -/
theorem floor_shortest (hlt : (format.shortest x).value < 10 ^ 15) :
    ⌊x⌋.toNat = ⌊(format.shortest x).value⌋₊ := by
  have hvalue := format.round_shortest x hpos hround
  have hnonneg := (format.shortest x).value_pos.le
  have hle := Nat.floor_le hnonneg
  have hsucc := Nat.lt_floor_add_one (format.shortest x).value
  have hbound : ⌊(format.shortest x).value⌋₊ + 1 ≤ 10 ^ 15 :=
    Nat.succ_le_of_lt ((Nat.floor_lt hnonneg).mpr (by exact_mod_cast hlt))
  rw [Int.floor_toNat, Nat.floor_eq_iff hpos.le]
  constructor
  · calc (⌊(format.shortest x).value⌋₊ : ℚ)
        = format.round ⌊(format.shortest x).value⌋₊ :=
          (format.round_natCast _ (by omega)).symm
      _ ≤ format.round (format.shortest x).value := format.mono hle
      _ = x := hvalue
  · apply lt_of_le_of_ne
    · calc x = format.round (format.shortest x).value := hvalue.symm
        _ ≤ format.round ((⌊(format.shortest x).value⌋₊ + 1 : ℕ) : ℚ) :=
            format.mono (by exact_mod_cast hsucc.le)
        _ = ⌊(format.shortest x).value⌋₊ + 1 := by
            rw [format.round_natCast _ hbound]
            push_cast
            rfl
    · -- A whole number is printed as it is.
      intro heq
      have hwhole := format.shortest_natCast _ (Nat.succ_pos _) hbound
      rw [Nat.cast_succ, ← heq] at hwhole
      exact absurd (hwhole.trans heq) hsucc.ne

theorem le_floor_of_large (hle : 10 ^ 15 ≤ (format.shortest x).value) :
    10 ^ 15 ≤ ⌊x⌋.toNat := by
  rw [Int.floor_toNat, Nat.le_floor_iff hpos.le]
  calc ((10 ^ 15 : ℕ) : ℚ) = format.round ((10 ^ 15 : ℕ) : ℚ) :=
        (format.round_natCast _ le_rfl).symm
    _ ≤ format.round (format.shortest x).value := format.mono (by exact_mod_cast hle)
    _ = x := format.round_shortest x hpos hround

end whole

end DoubleFormat

/-! ## A format of ten decimals -/

/-- Ten decimals below one, and none from there on. -/
def roundTenDecimals (x : ℚ) : ℚ :=
  if x < 1 then (⌊x * 10 ^ 10⌋ : ℚ) / 10 ^ 10 else (min ⌊x⌋ (10 ^ 15) : ℤ)

theorem roundTenDecimals_lt {x : ℚ} (h : x < 1) : roundTenDecimals x ≤ x := by
  rw [roundTenDecimals, if_pos h, div_le_iff₀ (by norm_num)]
  exact Int.floor_le _

theorem le_roundTenDecimals {x : ℚ} (h : 1 ≤ x) : 1 ≤ roundTenDecimals x := by
  rw [roundTenDecimals, if_neg h.not_gt]
  have hfloor : 1 ≤ ⌊x⌋ := Int.le_floor.mpr (by exact_mod_cast h)
  exact_mod_cast le_min hfloor (by norm_num)

theorem roundTenDecimals_mono : Monotone roundTenDecimals := by
  intro x y hxy
  obtain hx | hx := lt_or_ge x 1
  · obtain hy | hy := lt_or_ge y 1
    · rw [roundTenDecimals, roundTenDecimals, if_pos hx, if_pos hy]
      have hfloor : ⌊x * 10 ^ 10⌋ ≤ ⌊y * 10 ^ 10⌋ := Int.floor_le_floor (by linarith)
      gcongr
    · exact (roundTenDecimals_lt hx).trans (hx.le.trans (le_roundTenDecimals hy))
  · have hy := hx.trans hxy
    rw [roundTenDecimals, roundTenDecimals, if_neg hx.not_gt, if_neg hy.not_gt]
    exact Int.cast_le.mpr (min_le_min_right _ (Int.floor_le_floor hxy))

theorem roundTenDecimals_natCast {n : ℕ} (hle : n ≤ 10 ^ 15) : roundTenDecimals n = n := by
  obtain rfl | hpos := Nat.eq_zero_or_pos n
  · rw [roundTenDecimals, if_pos (by norm_num)]
    norm_num
  · rw [roundTenDecimals, if_neg (by exact_mod_cast Nat.not_lt.mpr hpos), Int.floor_natCast,
      min_eq_left (by exact_mod_cast hle)]
    rfl

/-- What is rounded is in decimals, or whole. -/
theorem roundTenDecimals_cases {x : ℚ} (hpos : 0 < x) (h : roundTenDecimals x = x) :
    (∃ n : ℕ, 0 < n ∧ n < 10 ^ 10 ∧ x = n / 10 ^ 10) ∨
      ∃ n : ℕ, 0 < n ∧ n ≤ 10 ^ 15 ∧ x = n := by
  rw [roundTenDecimals] at h
  split at h
  · rename_i hlt
    left
    have hfloor : (⌊x * 10 ^ 10⌋ : ℚ) = x * 10 ^ 10 := by
      rw [div_eq_iff (by norm_num)] at h
      exact h
    have hnonneg : 0 < ⌊x * 10 ^ 10⌋ := by
      have hproduct : (0 : ℚ) < ⌊x * 10 ^ 10⌋ := by
        rw [hfloor]
        positivity
      exact_mod_cast hproduct
    obtain ⟨n, hn⟩ := Int.eq_ofNat_of_zero_le hnonneg.le
    rw [hn] at hfloor hnonneg
    refine ⟨n, by exact_mod_cast hnonneg, ?_, ?_⟩
    · have hbound : (n : ℚ) < 10 ^ 10 := by
        have hn' : (n : ℚ) = x * 10 ^ 10 := by exact_mod_cast hfloor
        rw [hn']
        linarith
      exact_mod_cast hbound
    · rw [eq_div_iff (by norm_num)]
      exact_mod_cast hfloor.symm
  · rename_i hge
    right
    have hfloor : 1 ≤ ⌊x⌋ := Int.le_floor.mpr (by exact_mod_cast not_lt.mp hge)
    obtain ⟨n, hn⟩ := Int.eq_ofNat_of_zero_le (le_min (by omega) (by norm_num) :
      0 ≤ min ⌊x⌋ (10 ^ 15))
    rw [hn] at h
    refine ⟨n, ?_, ?_, by exact_mod_cast h.symm⟩
    · have hnat : (0 : ℚ) < n := by
        rw [← h] at hpos
        exact_mod_cast hpos
      exact_mod_cast hnat
    · have hmin := min_le_right ⌊x⌋ (10 ^ 15)
      rw [hn] at hmin
      exact_mod_cast hmin

def shortestTenDecimals (x : ℚ) : ShortDecimal :=
  if x < 1 then
    if h : 0 < ⌊x * 10 ^ 10⌋.toNat then ShortDecimal.strip _ (-10) h else ⟨1, 0, by decide⟩
  else if h : 0 < ⌊x⌋.toNat then ShortDecimal.strip _ 0 h else ⟨1, 0, by decide⟩

theorem decimals_lt_one {n : ℕ} (hlt : n < 10 ^ 10) : (n : ℚ) / 10 ^ 10 < 1 := by
  rw [div_lt_one (by norm_num)]
  exact_mod_cast hlt

theorem shortestTenDecimals_div {n : ℕ} (hpos : 0 < n) (hlt : n < 10 ^ 10) :
    shortestTenDecimals (n / 10 ^ 10) = ShortDecimal.strip n (-10) hpos := by
  have hfloor : ⌊(n : ℚ) / 10 ^ 10 * 10 ^ 10⌋.toNat = n := by
    rw [div_mul_cancel₀ _ (by norm_num), Int.floor_natCast, Int.toNat_natCast]
  simp only [shortestTenDecimals, if_pos (decimals_lt_one hlt), hfloor, dif_pos hpos]

theorem shortestTenDecimals_natCast {n : ℕ} (hpos : 0 < n) :
    shortestTenDecimals n = ShortDecimal.strip n 0 hpos := by
  have hge : ¬ (n : ℚ) < 1 := by exact_mod_cast Nat.not_lt.mpr hpos
  simp only [shortestTenDecimals, if_neg hge, Int.floor_natCast, Int.toNat_natCast, dif_pos hpos]

theorem value_shortestTenDecimals {x : ℚ} (hpos : 0 < x) (h : roundTenDecimals x = x) :
    (shortestTenDecimals x).value = x ∧ (shortestTenDecimals x).digits < 10 ^ 17 := by
  obtain ⟨n, hn, hlt, rfl⟩ | ⟨n, hn, hle, rfl⟩ := roundTenDecimals_cases hpos h
  · rw [shortestTenDecimals_div hn hlt, ShortDecimal.value_strip, div_eq_mul_inv]
    exact ⟨rfl, (ShortDecimal.digits_strip_le _ _ _).trans_lt (by omega)⟩
  · rw [shortestTenDecimals_natCast hn, ShortDecimal.value_strip, zpow_zero, mul_one]
    exact ⟨rfl, (ShortDecimal.digits_strip_le _ _ _).trans_lt (by omega)⟩

theorem roundTenDecimals_round (x : ℚ) :
    roundTenDecimals (roundTenDecimals x) = roundTenDecimals x := by
  obtain hx | hx := lt_or_ge x 1
  · have hlt := (roundTenDecimals_lt hx).trans_lt hx
    conv_lhs => rw [roundTenDecimals, if_pos hlt]
    rw [roundTenDecimals, if_pos hx, div_mul_cancel₀ _ (by norm_num), Int.floor_intCast]
  · have hge := le_roundTenDecimals hx
    conv_lhs => rw [roundTenDecimals, if_neg hge.not_gt]
    rw [roundTenDecimals, if_neg hx.not_gt, Int.floor_intCast, min_assoc, min_self]

def tenDecimals : DoubleFormat where
  round := roundTenDecimals
  mono := roundTenDecimals_mono
  round_round := roundTenDecimals_round
  round_zero := by
    exact_mod_cast roundTenDecimals_natCast (Nat.zero_le _)
  maxValue := 10 ^ 10
  shortest := shortestTenDecimals
  leastExponent := 5
  leastExponent_le := le_rfl
  round_natCast n := roundTenDecimals_natCast
  round_inv_pos x hpos hle := by
    have hinv : ((10 : ℚ) ^ 10)⁻¹ ≤ x⁻¹ := inv_anti₀ hpos hle
    obtain hlt | hge := lt_or_ge x⁻¹ 1
    · rw [roundTenDecimals, if_pos hlt]
      have hfloor : 0 < ⌊x⁻¹ * 10 ^ 10⌋ := by
        apply Int.floor_pos.mpr
        calc (1 : ℚ) = ((10 : ℚ) ^ 10)⁻¹ * 10 ^ 10 := by norm_num
          _ ≤ x⁻¹ * 10 ^ 10 := mul_le_mul_of_nonneg_right hinv (by norm_num)
      exact div_pos (by exact_mod_cast hfloor) (by norm_num)
    · exact zero_lt_one.trans_le (le_roundTenDecimals hge)
  round_shortest x hpos hround := by
    rw [(value_shortestTenDecimals hpos hround).1, hround]
  digits_lt x hpos hround := (value_shortestTenDecimals hpos hround).2
  shortest_natCast n hpos hle := by
    rw [shortestTenDecimals_natCast hpos, ShortDecimal.value_strip, zpow_zero, mul_one]

theorem roundTenDecimals_div {n : ℕ} (hlt : n < 10 ^ 10) :
    roundTenDecimals (n / 10 ^ 10) = n / 10 ^ 10 := by
  rw [roundTenDecimals, if_pos (decimals_lt_one hlt), div_mul_cancel₀ _ (by norm_num),
    Int.floor_natCast, Int.cast_natCast]

end Foundation
