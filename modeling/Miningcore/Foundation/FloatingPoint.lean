import Mathlib.Algebra.Order.Field.Power
import Mathlib.Algebra.Order.Field.Rat
import Mathlib.Data.Int.Log
import Mathlib.Tactic.Linarith
import Miningcore.Foundation.DecimalRounding

/-!
# Floating-point arithmetic

A floating-point number is a finite rational, an infinity or no number at all.
The result of an operation on finite numbers is rounded. Rounding keeps the order
and leaves its own results as they are; nothing else about the format matters for
differences of times. Zero has one sign and the exponent no bound.

Doubles are the numbers of 53 bits. A rational is rounded to the nearest one.
-/

namespace Foundation

/-- A rounding of rationals to those of a format. -/
structure Rounding where
  round : ℚ → ℚ
  mono : Monotone round
  round_round (x : ℚ) : round (round x) = round x
  round_zero : round 0 = 0

/-- The rounding that changes nothing. -/
def Rounding.exact : Rounding where
  round := id
  mono := monotone_id
  round_round _ := rfl
  round_zero := rfl

inductive FloatingPoint where
  | nan
  | infinite (negative : Bool)
  | finite (value : ℚ)
deriving DecidableEq

namespace FloatingPoint

def neg : FloatingPoint → FloatingPoint
  | nan => nan
  | infinite negative => infinite !negative
  | finite x => finite (-x)

def abs : FloatingPoint → FloatingPoint
  | nan => nan
  | infinite _ => infinite false
  | finite x => finite |x|

/-- Comparisons with no number are false. -/
def lt : FloatingPoint → FloatingPoint → Bool
  | nan, _ => false
  | _, nan => false
  | infinite negative, infinite other => negative && !other
  | infinite negative, finite _ => negative
  | finite _, infinite negative => !negative
  | finite x, finite y => decide (x < y)

def le : FloatingPoint → FloatingPoint → Bool
  | nan, _ => false
  | _, nan => false
  | infinite negative, infinite other => negative || !other
  | infinite negative, finite _ => negative
  | finite _, infinite negative => !negative
  | finite x, finite y => decide (x ≤ y)

/-- The larger of two numbers, and none when one of them is none. -/
def max (x y : FloatingPoint) : FloatingPoint :=
  match x, y with
  | nan, _ => nan
  | _, nan => nan
  | x, y => if lt x y then y else x

/-- The smaller of two numbers, and none when one of them is none. -/
def min (x y : FloatingPoint) : FloatingPoint :=
  match x, y with
  | nan, _ => nan
  | _, nan => nan
  | x, y => if lt y x then y else x

variable (rounding : Rounding)

def ofRat (x : ℚ) : FloatingPoint := finite (rounding.round x)

def add : FloatingPoint → FloatingPoint → FloatingPoint
  | nan, _ => nan
  | _, nan => nan
  | infinite negative, infinite other => if negative = other then infinite negative else nan
  | infinite negative, finite _ => infinite negative
  | finite _, infinite negative => infinite negative
  | finite x, finite y => ofRat rounding (x + y)

def sub (x y : FloatingPoint) : FloatingPoint := add rounding x (neg y)

def mul : FloatingPoint → FloatingPoint → FloatingPoint
  | nan, _ => nan
  | _, nan => nan
  | infinite negative, infinite other => infinite (negative != other)
  | infinite negative, finite y => if y = 0 then nan else infinite (negative != decide (y < 0))
  | finite x, infinite negative => if x = 0 then nan else infinite (negative != decide (x < 0))
  | finite x, finite y => ofRat rounding (x * y)

def div : FloatingPoint → FloatingPoint → FloatingPoint
  | nan, _ => nan
  | _, nan => nan
  | infinite _, infinite _ => nan
  | infinite negative, finite y => infinite (negative != decide (y < 0))
  | finite _, infinite _ => finite 0
  | finite x, finite y =>
      if y = 0 then (if x = 0 then nan else infinite (decide (x < 0)))
      else ofRat rounding (x / y)

def sum (xs : List FloatingPoint) : FloatingPoint :=
  xs.foldl (add rounding) (finite 0)

section finite

variable {rounding} {x y z : ℚ}

@[simp] theorem lt_finite : lt (finite x) (finite y) = decide (x < y) := rfl

@[simp] theorem le_finite : le (finite x) (finite y) = decide (x ≤ y) := rfl

@[simp] theorem sub_finite : sub rounding (finite x) (finite y) = ofRat rounding (x - y) :=
  congrArg (ofRat rounding) (sub_eq_add_neg x y).symm

@[simp] theorem add_finite : add rounding (finite x) (finite y) = ofRat rounding (x + y) := rfl

theorem min_finite : min (finite x) (finite y) = if y < x then finite y else finite x := by
  simp [min]

/-- A number that is not below a bound has no larger number below it. -/
theorem lt_eq_false_mono {bound : FloatingPoint} (h : lt (finite x) bound = false) (hle : x ≤ y) :
    lt (finite y) bound = false := by
  cases bound with
  | nan => rfl
  | infinite negative => exact h
  | finite z =>
      rw [lt_finite, decide_eq_false_iff_not, not_lt] at h ⊢
      exact h.trans hle

end finite

end FloatingPoint

/-! ## Doubles -/

/-- A number with 53 bits. -/
def IsDouble (x : ℚ) : Prop := ∃ mantissa exponent : ℤ, |mantissa| ≤ 2 ^ 53 ∧
  x = mantissa * 2 ^ exponent

/-- The exponent of the last bit. -/
def lastExponent (x : ℚ) : ℤ := Int.log 2 |x| - 52

/-- The nearest double, the even one halfway between two. -/
def roundDouble (x : ℚ) : ℚ := roundHalfEven (x / 2 ^ lastExponent x) * 2 ^ lastExponent x

section doubles

variable {x y : ℚ}

theorem IsDouble.neg (h : IsDouble x) : IsDouble (-x) := by
  obtain ⟨mantissa, exponent, hmantissa, rfl⟩ := h
  exact ⟨-mantissa, exponent, by rwa [abs_neg], by push_cast; ring⟩

theorem isDouble_natCast {n : ℕ} (h : n ≤ 2 ^ 53) : IsDouble n :=
  ⟨n, 0, by rw [Nat.abs_cast]; exact_mod_cast h, by rw [zpow_zero, mul_one, Int.cast_natCast]⟩

theorem roundDouble_neg (x : ℚ) : roundDouble (-x) = -roundDouble x := by
  rw [roundDouble, roundDouble, lastExponent, lastExponent, abs_neg, neg_div, roundHalfEven_neg,
    Int.cast_neg, neg_mul]

theorem roundDouble_zero : roundDouble 0 = 0 := by
  have hzero : roundHalfEven 0 = 0 := roundHalfEven_intCast 0
  rw [roundDouble, zero_div, hzero, Int.cast_zero, zero_mul]

theorem lastExponent_mono (hpos : 0 < x) (hle : x ≤ y) : lastExponent x ≤ lastExponent y := by
  rw [lastExponent, lastExponent, abs_of_pos hpos, abs_of_pos (hpos.trans_le hle)]
  exact Int.sub_le_sub_right (Int.log_mono_right hpos hle) 52

/-- A number has 53 bits before its last one. -/
theorem bits_bounds (hpos : 0 < x) :
    (2 : ℚ) ^ 52 ≤ x / 2 ^ lastExponent x ∧ x / 2 ^ lastExponent x < (2 : ℚ) ^ 53 := by
  have hlow : (2 : ℚ) ^ Int.log 2 x ≤ x := Int.zpow_log_le_self (by decide) hpos
  have hhigh : x < (2 : ℚ) ^ (Int.log 2 x + 1) := Int.lt_zpow_succ_log_self (by decide) x
  have hpow : (0 : ℚ) < 2 ^ lastExponent x := by positivity
  rw [le_div_iff₀ hpow, div_lt_iff₀ hpow, ← zpow_natCast, ← zpow_natCast,
    ← zpow_add₀ two_ne_zero, ← zpow_add₀ two_ne_zero, lastExponent, abs_of_pos hpos]
  push_cast
  rw [add_sub_cancel, show (53 : ℤ) + (Int.log 2 x - 52) = Int.log 2 x + 1 by ring]
  exact ⟨hlow, hhigh⟩

theorem roundDouble_bounds (hpos : 0 < x) :
    2 ^ 52 * 2 ^ lastExponent x ≤ roundDouble x ∧
      roundDouble x ≤ 2 ^ 53 * 2 ^ lastExponent x := by
  obtain ⟨hlow, hhigh⟩ := bits_bounds hpos
  have hpow : (0 : ℚ) ≤ 2 ^ lastExponent x := by positivity
  have hlow' : 2 ^ 52 ≤ roundHalfEven (x / 2 ^ lastExponent x) := by
    rw [← roundHalfEven_intCast (2 ^ 52)]
    exact roundHalfEven_mono (by exact_mod_cast hlow)
  have hhigh' : roundHalfEven (x / 2 ^ lastExponent x) ≤ 2 ^ 53 := by
    rw [← roundHalfEven_intCast (2 ^ 53)]
    exact roundHalfEven_mono (by exact_mod_cast hhigh.le)
  exact ⟨mul_le_mul_of_nonneg_right (by exact_mod_cast hlow') hpow,
    mul_le_mul_of_nonneg_right (by exact_mod_cast hhigh') hpow⟩

theorem roundDouble_nonneg (h : 0 ≤ x) : 0 ≤ roundDouble x := by
  obtain hpos | rfl := h.lt_or_eq
  · exact le_trans (by positivity) (roundDouble_bounds hpos).1
  · exact roundDouble_zero.ge

theorem roundDouble_le_of_pos (hpos : 0 < x) (hle : x ≤ y) : roundDouble x ≤ roundDouble y := by
  obtain hlt | heq := (lastExponent_mono hpos hle).lt_or_eq
  · calc roundDouble x ≤ 2 ^ 53 * 2 ^ lastExponent x := (roundDouble_bounds hpos).2
      _ = 2 ^ 52 * 2 ^ (lastExponent x + 1) := by
          rw [zpow_add_one₀ two_ne_zero]
          ring
      _ ≤ 2 ^ 52 * 2 ^ lastExponent y :=
          mul_le_mul_of_nonneg_left (zpow_le_zpow_right₀ (by norm_num) hlt) (by norm_num)
      _ ≤ roundDouble y := (roundDouble_bounds (hpos.trans_le hle)).1
  · have hpow : (0 : ℚ) < 2 ^ lastExponent y := by positivity
    rw [roundDouble, roundDouble, heq]
    have hround : roundHalfEven (x / 2 ^ lastExponent y) ≤ roundHalfEven (y / 2 ^ lastExponent y) :=
      roundHalfEven_mono (div_le_div_of_nonneg_right hle hpow.le)
    exact mul_le_mul_of_nonneg_right (by exact_mod_cast hround) hpow.le

theorem roundDouble_mono : Monotone roundDouble := by
  intro x y hle
  obtain hpos | hnonpos := lt_or_ge 0 x
  · exact roundDouble_le_of_pos hpos hle
  · obtain hneg | hnonneg := lt_or_ge y 0
    · rw [← neg_le_neg_iff, ← roundDouble_neg, ← roundDouble_neg]
      exact roundDouble_le_of_pos (neg_pos.mpr hneg) (neg_le_neg hle)
    · have hx := roundDouble_nonneg (neg_nonneg.mpr hnonpos)
      rw [roundDouble_neg] at hx
      linarith [roundDouble_nonneg hnonneg]

theorem isDouble_roundDouble (x : ℚ) : IsDouble (roundDouble x) := by
  have hbound {z : ℚ} (hpos : 0 < z) : IsDouble (roundDouble z) := by
    refine ⟨roundHalfEven (z / 2 ^ lastExponent z), lastExponent z, ?_, rfl⟩
    obtain ⟨hlow, hhigh⟩ := bits_bounds hpos
    have hlow' : 0 ≤ roundHalfEven (z / 2 ^ lastExponent z) := by
      rw [← roundHalfEven_intCast 0]
      exact roundHalfEven_mono (by rw [Int.cast_zero]; positivity)
    rw [abs_of_nonneg hlow', ← roundHalfEven_intCast (2 ^ 53)]
    exact roundHalfEven_mono (by exact_mod_cast hhigh.le)
  obtain hneg | rfl | hpos := lt_trichotomy x 0
  · have h := (hbound (neg_pos.mpr hneg)).neg
    rwa [roundDouble_neg, neg_neg] at h
  · rw [roundDouble_zero]
    exact ⟨0, 0, by norm_num, by simp⟩
  · exact hbound hpos

/-- A double is a whole number of its last bits. -/
theorem exists_intCast_div (h : IsDouble x) (hpos : 0 < x) :
    ∃ n : ℤ, x / 2 ^ lastExponent x = n := by
  obtain ⟨mantissa, exponent, hmantissa, hx⟩ := h
  have hscale : x / 2 ^ lastExponent x = mantissa * 2 ^ (exponent - lastExponent x) := by
    conv_lhs => rw [hx]
    rw [mul_div_assoc, ← zpow_sub₀ two_ne_zero, ← hx]
  obtain hle | hlt := le_or_gt (lastExponent x) exponent
  · obtain ⟨n, hn⟩ := Int.eq_ofNat_of_zero_le (Int.sub_nonneg_of_le hle)
    refine ⟨mantissa * 2 ^ n, ?_⟩
    rw [hscale, hn, zpow_natCast]
    push_cast
    rfl
  · -- Only the least number with all bits has a last bit below its own.
    obtain ⟨hlow, -⟩ := bits_bounds hpos
    refine ⟨2 ^ 52, le_antisymm ?_ (by exact_mod_cast hlow)⟩
    have hmantissa' : (mantissa : ℚ) ≤ 2 ^ 53 := by exact_mod_cast (le_abs_self _).trans hmantissa
    have hpow : (2 : ℚ) ^ (exponent - lastExponent x) ≤ 2 ^ (-1 : ℤ) :=
      zpow_le_zpow_right₀ (by norm_num) (by omega)
    have hnonneg : (0 : ℚ) ≤ 2 ^ (exponent - lastExponent x) := by positivity
    calc x / 2 ^ lastExponent x = mantissa * 2 ^ (exponent - lastExponent x) := hscale
      _ ≤ 2 ^ 53 * 2 ^ (exponent - lastExponent x) :=
          mul_le_mul_of_nonneg_right hmantissa' hnonneg
      _ ≤ 2 ^ 53 * 2 ^ (-1 : ℤ) := mul_le_mul_of_nonneg_left hpow (by norm_num)
      _ = ((2 ^ 52 : ℤ) : ℚ) := by norm_num

theorem roundDouble_eq (h : IsDouble x) : roundDouble x = x := by
  have hpositive {z : ℚ} (h : IsDouble z) (hpos : 0 < z) : roundDouble z = z := by
    obtain ⟨n, hn⟩ := exists_intCast_div h hpos
    rw [roundDouble, hn, roundHalfEven_intCast, ← hn, div_mul_cancel₀ _ (by positivity)]
  obtain hneg | rfl | hpos := lt_trichotomy x 0
  · have hround := hpositive h.neg (neg_pos.mpr hneg)
    rwa [roundDouble_neg, neg_inj] at hround
  · exact roundDouble_zero
  · exact hpositive h hpos

theorem roundDouble_natCast {n : ℕ} (h : n ≤ 2 ^ 53) : roundDouble n = n :=
  roundDouble_eq (isDouble_natCast h)

/-- The rounding of a format of 53 bits. -/
def Rounding.double : Rounding where
  round := roundDouble
  mono := roundDouble_mono
  round_round x := roundDouble_eq (isDouble_roundDouble x)
  round_zero := roundDouble_zero

/-- What rounding adds or takes is at most half of the last of 53 bits. -/
theorem abs_roundDouble_sub_le (x : ℚ) : |roundDouble x - x| ≤ |x| / 2 ^ 53 := by
  have hpositive {z : ℚ} (hpos : 0 < z) : |roundDouble z - z| ≤ z / 2 ^ 53 := by
    have hpow : (0 : ℚ) < 2 ^ lastExponent z := by positivity
    have hhigh := roundHalfEven_le (z / 2 ^ lastExponent z)
    have hlow := sub_half_le_roundHalfEven (z / 2 ^ lastExponent z)
    have hhalf : |roundHalfEven (z / 2 ^ lastExponent z) - z / 2 ^ lastExponent z| ≤ 1 / 2 := by
      rw [abs_le]
      constructor <;> linarith
    have hsplit : roundDouble z - z =
        (roundHalfEven (z / 2 ^ lastExponent z) - z / 2 ^ lastExponent z) *
          2 ^ lastExponent z := by
      rw [roundDouble, sub_mul, div_mul_cancel₀ _ hpow.ne']
    have hbits := (le_div_iff₀ hpow).mp (bits_bounds hpos).1
    rw [hsplit, abs_mul, abs_of_pos hpow]
    calc |roundHalfEven (z / 2 ^ lastExponent z) - z / 2 ^ lastExponent z| * 2 ^ lastExponent z
        ≤ 1 / 2 * 2 ^ lastExponent z := mul_le_mul_of_nonneg_right hhalf hpow.le
      _ ≤ z / 2 ^ 53 := by
          rw [le_div_iff₀ (by norm_num)]
          linarith
  obtain hneg | rfl | hpos := lt_trichotomy x 0
  · have h := hpositive (neg_pos.mpr hneg)
    rw [roundDouble_neg, ← abs_neg, neg_sub, sub_neg_eq_add, neg_add_eq_sub] at h
    rwa [abs_of_neg hneg]
  · rw [roundDouble_zero, sub_zero, abs_zero, zero_div]
  · rw [abs_of_pos hpos]
    exact hpositive hpos

/-- A double below a power of two is a last bit below it. -/
theorem IsDouble.le_of_lt (h : IsDouble x) {exponent : ℤ} (hlt : x < 2 ^ exponent) :
    x ≤ 2 ^ exponent - 2 ^ (exponent - 53) := by
  obtain ⟨mantissa, exponent', hmantissa, rfl⟩ := h
  have hmantissa' : (mantissa : ℚ) ≤ 2 ^ 53 := by exact_mod_cast (le_abs_self _).trans hmantissa
  have hsplit : (2 : ℚ) ^ exponent = 2 ^ 53 * 2 ^ (exponent - 53) := by
    rw [← zpow_natCast, ← zpow_add₀ two_ne_zero]
    push_cast
    rw [add_sub_cancel]
  have hpow : (0 : ℚ) < 2 ^ (exponent - 53) := by positivity
  obtain hlow | hhigh := lt_or_ge exponent' (exponent - 53)
  · have hhalf : (2 : ℚ) ^ exponent' ≤ 2 ^ (exponent - 53) / 2 := by
      rw [le_div_iff₀ two_pos, ← zpow_add_one₀ two_ne_zero]
      exact zpow_le_zpow_right₀ (by norm_num) hlow
    have hpow' : (0 : ℚ) ≤ 2 ^ exponent' := by positivity
    calc (mantissa : ℚ) * 2 ^ exponent' ≤ 2 ^ 53 * 2 ^ exponent' :=
          mul_le_mul_of_nonneg_right hmantissa' hpow'
      _ ≤ 2 ^ 53 * (2 ^ (exponent - 53) / 2) := mul_le_mul_of_nonneg_left hhalf (by norm_num)
      _ ≤ 2 ^ exponent - 2 ^ (exponent - 53) := by
          rw [hsplit]
          linarith
  · obtain ⟨n, hn⟩ := Int.eq_ofNat_of_zero_le (Int.sub_nonneg_of_le hhigh)
    have hwhole : (mantissa : ℚ) * 2 ^ exponent' =
        (mantissa * 2 ^ n : ℤ) * 2 ^ (exponent - 53) := by
      rw [eq_add_of_sub_eq hn, zpow_add₀ two_ne_zero, zpow_natCast]
      push_cast
      ring
    rw [hwhole, hsplit] at hlt ⊢
    have hless : mantissa * 2 ^ n < 2 ^ 53 := by
      exact_mod_cast lt_of_mul_lt_mul_right hlt hpow.le
    have hcast : ((mantissa * 2 ^ n : ℤ) : ℚ) ≤ 2 ^ 53 - 1 := by
      exact_mod_cast Int.le_sub_one_of_lt hless
    calc ((mantissa * 2 ^ n : ℤ) : ℚ) * 2 ^ (exponent - 53)
        ≤ (2 ^ 53 - 1) * 2 ^ (exponent - 53) := mul_le_mul_of_nonneg_right hcast hpow.le
      _ = 2 ^ 53 * 2 ^ (exponent - 53) - 2 ^ (exponent - 53) := by ring

end doubles

end Foundation
