import Miningcore.Blockchain.Warthog.WarthogCustomFloat

/-!
# Comparisons of floats, and the tests of a job

The operators compare the absolute values of the exponents before the mantissas, and leave out
the sign. They were written for the positive numbers below one that hashes stand for.

## Implementation notes

The exponents of sums and products of hashes stay far from the ends of `int`. A difficulty is a
double, and the inverse of its significand is rounded. The conversion of no number to `uint` gives
zero.
-/

namespace Miningcore.Warthog

open Foundation

namespace WarthogCustomFloat

section comparisons

/-- The absolute value of the exponent, as `uint`. -/
def zeros (wcf : WarthogCustomFloat) : ℕ := wcf.exponent.natAbs

variable (wcf1 wcf2 : WarthogCustomFloat)

def lt : Bool :=
  if zeros wcf1 < zeros wcf2 then false
  else if zeros wcf2 < zeros wcf1 then true
  else decide (wcf1.mantissa < wcf2.mantissa)

/-- The last line is not reached. -/
def le : Bool :=
  if zeros wcf1 < zeros wcf2 then false
  else if zeros wcf2 ≤ zeros wcf1 then true
  else decide (wcf1.mantissa ≤ wcf2.mantissa)

def gt : Bool := !lt wcf1 wcf2

def ge : Bool := !le wcf1 wcf2

def signedMantissa (wcf : WarthogCustomFloat) : ℤ :=
  if wcf.isPositive then wcf.mantissa else -wcf.mantissa

/-- The products cross mantissas with exponents. -/
def equals : Bool :=
  if wcf1.exponent = wcf2.exponent ∧ wcf1.mantissa = wcf2.mantissa then
    wcf1.isPositive == wcf2.isPositive
  else decide (signedMantissa wcf1 * wcf2.exponent = wcf1.exponent * signedMantissa wcf2)

/-- The operators order two floats as the numbers they stand for. -/
structure AgreesWithOrder : Prop where
  lt_iff : lt wcf1 wcf2 = true ↔ value wcf1 < value wcf2
  le_iff : le wcf1 wcf2 = true ↔ value wcf1 ≤ value wcf2
  gt_iff : gt wcf1 wcf2 = true ↔ value wcf2 < value wcf1
  ge_iff : ge wcf1 wcf2 = true ↔ value wcf2 ≤ value wcf1

/-- The smaller number has the exponent with the larger absolute value, or is on the left and has
the smaller mantissa behind an exponent with the same absolute value. -/
def Separated : Prop :=
  value wcf1 < value wcf2 ∧
      (zeros wcf2 < zeros wcf1 ∨ zeros wcf1 = zeros wcf2 ∧ wcf1.mantissa < wcf2.mantissa) ∨
    value wcf2 < value wcf1 ∧ zeros wcf1 < zeros wcf2

/-- One of three holds and the others do not. -/
def ExactlyOne (p q r : Prop) : Prop :=
  p ∧ ¬ q ∧ ¬ r ∨ ¬ p ∧ q ∧ ¬ r ∨ ¬ p ∧ ¬ q ∧ r

variable {wcf1 wcf2}

theorem lt_eq_true_iff : lt wcf1 wcf2 = true ↔
    zeros wcf2 < zeros wcf1 ∨ zeros wcf1 = zeros wcf2 ∧ wcf1.mantissa < wcf2.mantissa := by
  rw [lt]
  split
  · simp only [Bool.false_eq_true, false_iff]
    omega
  · split
    · simp only [true_iff]
      omega
    · simp only [decide_eq_true_eq]
      omega

/-- Without its last line the operator leaves out the mantissas. -/
theorem le_eq_true_iff : le wcf1 wcf2 = true ↔ zeros wcf2 ≤ zeros wcf1 := by
  rw [le]
  split
  · simp only [Bool.false_eq_true, false_iff]
    omega
  · rw [if_pos (by omega)]
    simp only [true_iff]
    omega

theorem gt_eq_true_iff : gt wcf1 wcf2 = true ↔ ¬ lt wcf1 wcf2 = true := by
  rw [gt, Bool.not_eq_true', Bool.not_eq_true]

theorem ge_eq_true_iff : ge wcf1 wcf2 = true ↔ ¬ le wcf1 wcf2 = true := by
  rw [ge, Bool.not_eq_true', Bool.not_eq_true]

/-- Equal numbers are never separated: one of them would have to be below the other. -/
theorem agreesWithOrder_iff : AgreesWithOrder wcf1 wcf2 ↔ Separated wcf1 wcf2 := by
  rw [Separated, ← lt_eq_true_iff]
  constructor
  · intro h
    rcases lt_trichotomy (value wcf1) (value wcf2) with hlt | heq | hgt
    · exact Or.inl ⟨hlt, h.lt_iff.mpr hlt⟩
    · have hnotlt : ¬ lt wcf1 wcf2 = true := fun hlt => (h.lt_iff.mp hlt).ne heq
      exact absurd (h.gt_iff.mp (gt_eq_true_iff.mpr hnotlt)) heq.not_gt
    · have hnotle : ¬ le wcf1 wcf2 = true := fun hle => hgt.not_ge (h.le_iff.mp hle)
      rw [le_eq_true_iff, not_le] at hnotle
      exact Or.inr ⟨hgt, hnotle⟩
  · rintro (⟨hvalue, hlt⟩ | ⟨hvalue, hzeros⟩)
    · have hle : le wcf1 wcf2 = true := by
        rw [lt_eq_true_iff] at hlt
        rw [le_eq_true_iff]
        omega
      refine ⟨iff_of_true hlt hvalue, iff_of_true hle hvalue.le, ?_, ?_⟩
      · exact iff_of_false (fun hgt => gt_eq_true_iff.mp hgt hlt) hvalue.not_gt
      · exact iff_of_false (fun hge => ge_eq_true_iff.mp hge hle) hvalue.not_ge
    · have hnotlt : ¬ lt wcf1 wcf2 = true := by
        rw [lt_eq_true_iff]
        omega
      have hnotle : ¬ le wcf1 wcf2 = true := by
        rw [le_eq_true_iff]
        omega
      refine ⟨iff_of_false hnotlt hvalue.not_gt, iff_of_false hnotle hvalue.not_ge, ?_, ?_⟩
      · exact iff_of_true (gt_eq_true_iff.mpr hnotlt) hvalue
      · exact iff_of_true (ge_eq_true_iff.mpr hnotle) hvalue.le

/-- A third case beside two that exclude each other is not met. -/
theorem exactlyOne_not_iff (p q : Prop) : ExactlyOne p q (¬ p) ↔ ¬ q := by
  rw [ExactlyOne]
  tauto

end comparisons

section order

variable {a b : WarthogCustomFloat}

/-- The order of normal floats, by sign, exponent and mantissa. -/
def Precedes (a b : WarthogCustomFloat) : Prop :=
  match a.isPositive, b.isPositive with
  | true, true => a.exponent < b.exponent ∨ a.exponent = b.exponent ∧ a.mantissa < b.mantissa
  | true, false => False
  | false, true => True
  | false, false => b.exponent < a.exponent ∨ b.exponent = a.exponent ∧ b.mantissa < a.mantissa

theorem le_abs_value (h : IsNormalized a) : 2 ^ (a.exponent - 1) ≤ |value a| := by
  have hmantissa : (2 ^ 31 : ℚ) ≤ a.mantissa := by exact_mod_cast h.1
  calc (2 : ℚ) ^ (a.exponent - 1) = 2 ^ 31 * ulp a := two_zpow_eq_mul 31 (by omega)
    _ ≤ a.mantissa * ulp a := mul_le_mul_of_nonneg_right hmantissa (ulp_pos a).le
    _ = |value a| := (abs_value a).symm

theorem value_eq_signOf_mul_abs (a : WarthogCustomFloat) :
    value a = signOf a.isPositive * |value a| := by
  rw [abs_value, ← mul_assoc, value_eq]

theorem abs_value_pos (h : IsNormalized a) : 0 < |value a| :=
  (zpow_pos two_pos _).trans_le (le_abs_value h)

theorem isPositive_iff (h : IsNormalized a) : a.isPositive = true ↔ 0 < value a := by
  rw [value_eq_signOf_mul_abs]
  have habs := abs_value_pos h
  cases a.isPositive
  · simp only [signOf, Bool.false_eq_true, if_false, false_iff, not_lt]
    linarith
  · simp only [signOf, if_true, one_mul, true_iff]
    exact habs

theorem abs_value_lt_abs_value (ha : IsNormalized a) (hb : IsNormalized b)
    (h : a.exponent < b.exponent) : |value a| < |value b| := by
  calc |value a| < 2 ^ a.exponent := abs_value_lt ha
    _ ≤ 2 ^ (b.exponent - 1) := zpow_le_zpow_right₀ one_le_two (by omega)
    _ ≤ |value b| := le_abs_value hb

/-- Behind the point the exponent goes before the mantissa. -/
theorem abs_value_lt_iff (ha : IsNormalized a) (hb : IsNormalized b) :
    |value a| < |value b| ↔
      a.exponent < b.exponent ∨ a.exponent = b.exponent ∧ a.mantissa < b.mantissa := by
  rcases lt_trichotomy a.exponent b.exponent with hlt | heq | hgt
  · exact iff_of_true (abs_value_lt_abs_value ha hb hlt) (Or.inl hlt)
  · have hulp : ulp b = ulp a := by rw [ulp, ulp, heq]
    rw [abs_value, abs_value, hulp, mul_lt_mul_iff_left₀ (ulp_pos a), Nat.cast_lt]
    omega
  · exact iff_of_false (abs_value_lt_abs_value hb ha hgt).not_gt (by omega)

theorem value_lt_value_iff (ha : IsNormalized a) (hb : IsNormalized b) :
    value a < value b ↔ Precedes a b := by
  have hapos := abs_value_pos ha
  have hbpos := abs_value_pos hb
  rw [value_eq_signOf_mul_abs a, value_eq_signOf_mul_abs b, Precedes]
  cases a.isPositive <;> cases b.isPositive <;>
    simp only [signOf, Bool.false_eq_true, if_false, if_true, neg_one_mul, one_mul]
  · rw [neg_lt_neg_iff]
    exact abs_value_lt_iff hb ha
  · exact iff_of_true (by linarith) trivial
  · exact iff_of_false (by linarith) not_false
  · exact abs_value_lt_iff ha hb

/-- Positive floats below one are compared as they should be. -/
theorem lt_eq_true_iff_value (ha : IsNormalized a) (hb : IsNormalized b)
    (hpositive : a.isPositive = true) (hpositive' : b.isPositive = true) (hle : a.exponent ≤ 0)
    (hle' : b.exponent ≤ 0) : lt a b = true ↔ value a < value b := by
  rw [value_lt_value_iff ha hb, Precedes, hpositive, hpositive', lt_eq_true_iff, zeros, zeros]
  omega

end order

section powers

/-- One step of the polynomials: the coefficient before the product. -/
def multiplyAdd (coefficient wcf result : WarthogCustomFloat) :
    Except FloatError WarthogCustomFloat := do
  add coefficient (← mul wcf result)

/-- A polynomial of the third degree. -/
def cubic (c0 c1 c2 c3 wcf : WarthogCustomFloat) : Except FloatError WarthogCustomFloat := do
  multiplyAdd c3 wcf (← multiplyAdd c2 wcf (← multiplyAdd c1 wcf c0))

def log2 (wcf : WarthogCustomFloat) : Except FloatError WarthogCustomFloat := do
  let d ← cubic ⟨1, 2872373668, true⟩ ⟨3, 2377545675, false⟩ ⟨3, 3384280813, true⟩
    ⟨2, 3451338727, false⟩ { wcf with exponent := 0 }
  add (← ofInt wcf.exponent) d

def pow2Fraction (wcf : WarthogCustomFloat) : Except FloatError WarthogCustomFloat :=
  cubic ⟨-3, 3207796260, true⟩ ⟨-2, 3510493713, true⟩ ⟨0, 3014961390, true⟩
    ⟨1, 2147933481, true⟩ wcf

def setExponent (wcf : WarthogCustomFloat) (exponent : ℤ) : Except FloatError WarthogCustomFloat :=
  checked { wcf with exponent }

/-- Shift counts are masked. -/
def pow2 (wcf : WarthogCustomFloat) : Except FloatError WarthogCustomFloat :=
  if wcf.mantissa = 0 then ofInt 1
  else if wcf.exponent = 32 then ofPower (signedMantissa wcf) true
  else if 0 < wcf.exponent then
    let e := wcf.mantissa >>> ((32 - wcf.exponent) % 32).toNat
    let mFrac := wcf.mantissa <<< (wcf.exponent % 32).toNat % 2 ^ 32
    if mFrac = 0 then
      if wcf.isPositive then ofPower e true
      else do
        let wcf1 ← ofPower e true
        let wcf1 ← setExponent wcf1 (-wcf1.exponent)
        setExponent wcf1 (wcf1.exponent + 2)
    else do
      let frac ← shiftLeft 0 mFrac true
      if wcf.isPositive then
        let wcf1 ← pow2Fraction frac
        setExponent wcf1 (wcf1.exponent + e)
      else
        let wcf1 ← pow2Fraction (← sub (← ofInt 1) frac)
        let wcf1 ← setExponent wcf1 (wcf1.exponent + (e - 1))
        setExponent wcf1 (-wcf1.exponent)
  else if wcf.isPositive then pow2Fraction wcf
  else do
    let wcf1 ← pow2Fraction (← add (← ofInt 1) wcf)
    let wcf1 ← setExponent wcf1 (-wcf1.exponent)
    setExponent wcf1 (wcf1.exponent + 1)

def pow (wcf1 wcf2 : WarthogCustomFloat) : Except FloatError WarthogCustomFloat := do
  pow2 (← mul wcf2 (← log2 wcf1))

end powers

section smallExponents

variable {a b c : WarthogCustomFloat}

theorem bind_of_eq_ok {α β : Type} {x : Except FloatError α} {value : α}
    {next : α → Except FloatError β} (h : x = .ok value) : (x >>= next) = next value := by
  rw [h]
  rfl

theorem checked_eq (hlow : -2 ^ 30 ≤ a.exponent) (hhigh : a.exponent ≤ 2 ^ 30) :
    checked a = .ok a := by
  rw [checked, if_pos]
  rw [IsValidExponent]
  omega

/-- Far from the ends of `int` a sum is returned. -/
theorem exists_add_eq (ha : IsNormalized a) (hb : IsNormalized b) (hazeros : zeros a ≤ 2 ^ 20)
    (hbzeros : zeros b ≤ 2 ^ 20) :
    ∃ r, add a b = .ok r ∧ IsSum (add a b) a b (max a.exponent b.exponent) r := by
  rw [zeros] at hazeros hbzeros
  obtain ⟨r, hr⟩ := exists_isSum ha hb (by rw [abs_lt]; omega)
  have hle := hr.le_exponent
  have hge := hr.exponent_le
  have hchecked : checked r = .ok r := checked_eq (by omega) (by omega)
  exact ⟨r, hr.returned.elim id fun h => h.trans hchecked, hr⟩

/-- Far from the ends of `int` a product is returned. -/
theorem exists_mul_eq (ha : IsNormalized a) (hb : IsNormalized b) (hazeros : zeros a ≤ 2 ^ 20)
    (hbzeros : zeros b ≤ 2 ^ 20) : ∃ r, mul a b = .ok r ∧ IsProduct (mul a b) a b r := by
  rw [zeros] at hazeros hbzeros
  obtain ⟨r, hr⟩ := exists_isProduct ha hb (by omega) (by omega)
  have hle := hr.le_exponent
  have hge := hr.exponent_le
  exact ⟨r, hr.returned.trans (checked_eq (by omega) (by omega)), hr⟩

theorem IsNormal.isNormalized_of_value_ne_zero (h : IsNormal a) (hne : value a ≠ 0) :
    IsNormalized a :=
  h.isNormalized fun hzero => hne (value_of_mantissa_eq_zero hzero)

theorem exists_multiplyAdd (hb : IsNormalized b) (hc : IsNormalized c) (ha : IsNormalized a)
    (hbzeros : zeros b ≤ 2 ^ 10) (hczeros : zeros c ≤ 2 ^ 10) (hazeros : zeros a ≤ 2 ^ 10) :
    ∃ t r, multiplyAdd c b a = .ok r ∧ IsProduct (mul b a) b a t ∧
      IsSum (add c t) c t (max c.exponent t.exponent) r := by
  obtain ⟨t, hmul, ht⟩ := exists_mul_eq hb ha (by omega) (by omega)
  have hle := ht.le_exponent
  have hge := ht.exponent_le
  rw [zeros] at hazeros hbzeros
  obtain ⟨r, hadd, hr⟩ := exists_add_eq hc ht.isNormalized (by omega) (by rw [zeros]; omega)
  exact ⟨t, r, (bind_of_eq_ok hmul).trans hadd, ht, hr⟩

/-- A step between positive floats. -/
theorem exists_multiplyAdd_pos (hb : IsNormalized b) (hc : IsNormalized c) (ha : IsNormalized a)
    (hbzeros : zeros b ≤ 2 ^ 10) (hczeros : zeros c ≤ 2 ^ 10) (hazeros : zeros a ≤ 2 ^ 10)
    (hbpositive : b.isPositive = true) (hcpositive : c.isPositive = true)
    (hapositive : a.isPositive = true) :
    ∃ r, multiplyAdd c b a = .ok r ∧ IsNormalized r ∧ r.isPositive = true ∧
      c.exponent ≤ r.exponent ∧ r.exponent ≤ max c.exponent (b.exponent + a.exponent) + 1 := by
  obtain ⟨t, r, heq, ht, hr⟩ := exists_multiplyAdd hb hc ha hbzeros hczeros hazeros
  have htpositive : t.isPositive = true := by
    rw [ht.isPositive_eq, hbpositive, hapositive, beq_self_eq_true]
  obtain ⟨hpositive, hle, hnormalized⟩ := hr.same_sign (hcpositive.trans htpositive.symm)
  have hge := hr.exponent_le
  have hproduct := ht.exponent_le
  exact ⟨r, heq, hnormalized, hpositive.trans hcpositive, by omega, by omega⟩

/-- A step with a number below one rounds twice. -/
theorem exists_multiplyAdd_error {n : ℤ} (hb : IsNormalized b) (hc : IsNormalized c)
    (ha : IsNormalized a) (hbexponent : b.exponent = 0) (hcexponent : c.exponent ≤ n)
    (haexponent : a.exponent ≤ n) (hczeros : zeros c ≤ 2 ^ 10)
    (hazeros : zeros a ≤ 2 ^ 10) :
    ∃ r, multiplyAdd c b a = .ok r ∧ IsNormal r ∧ c.exponent - 31 ≤ r.exponent ∧
      r.exponent ≤ n + 1 ∧ |value r - (value c + value b * value a)| < 2 ^ (n + 2 - 32) := by
  obtain ⟨t, r, heq, ht, hr⟩ :=
    exists_multiplyAdd hb hc ha (by rw [zeros]; omega) hczeros hazeros
  have hle := hr.le_exponent
  have hge := hr.exponent_le
  have hproduct := ht.exponent_le
  refine ⟨r, heq, hr.isNormal, by omega, by omega, ?_⟩
  have hsum : |value r - (value c + value t)| < 2 ^ (n + 1 - 32) :=
    hr.error_lt.trans_le (zpow_le_zpow_right₀ one_le_two (by omega))
  have htimes : |value t - value b * value a| < 2 ^ (n + 1 - 32) :=
    ht.error_lt.trans_le (zpow_le_zpow_right₀ one_le_two (by omega))
  calc |value r - (value c + value b * value a)|
      = |value r - (value c + value t) + (value t - value b * value a)| := by
        congr 1
        ring
    _ ≤ |value r - (value c + value t)| + |value t - value b * value a| := abs_add_le _ _
    _ < 2 ^ (n + 1 - 32) + 2 ^ (n + 1 - 32) := add_lt_add hsum htimes
    _ = 2 ^ (n + 2 - 32) := by
        have hexponent : n + 2 - 32 = n + 1 - 32 + 1 := by ring
        rw [hexponent, zpow_add_one₀ two_ne_zero]
        ring

/-- The steps of the logarithm of a number from zero to one, each off by less than a millionth. -/
theorem log2_first_neg {x r1 : ℚ} (hle : x ≤ 1)
    (h1 : |r1 - (-2377545675 / 2 ^ 29 + x * (2872373668 / 2 ^ 31))| < 1 / 10 ^ 6) : r1 < 0 := by
  rw [abs_lt] at h1
  linarith [h1.2]

theorem log2_second_pos {x r1 r2 : ℚ} (hnonneg : 0 ≤ x)
    (h1 : |r1 - (-2377545675 / 2 ^ 29 + x * (2872373668 / 2 ^ 31))| < 1 / 10 ^ 6)
    (h2 : |r2 - (3384280813 / 2 ^ 29 + x * r1)| < 1 / 10 ^ 6) : 0 < r2 := by
  rw [abs_lt] at h1 h2
  have hproduct : x * (-2377545675 / 2 ^ 29 + x * (2872373668 / 2 ^ 31) - 1 / 10 ^ 6) ≤ x * r1 :=
    mul_le_mul_of_nonneg_left (by linarith [h1.1]) hnonneg
  -- the least value of the parabola is about 2.6
  linarith [h2.1, sq_nonneg (x - 166 / 100)]

theorem log2_third_neg {x r1 r2 r3 : ℚ} (hnonneg : 0 ≤ x) (hle : x ≤ 1)
    (h1 : |r1 - (-2377545675 / 2 ^ 29 + x * (2872373668 / 2 ^ 31))| < 1 / 10 ^ 6)
    (h2 : |r2 - (3384280813 / 2 ^ 29 + x * r1)| < 1 / 10 ^ 6)
    (h3 : |r3 - (-3451338727 / 2 ^ 30 + x * r2)| < 1 / 10 ^ 6) : r3 < 0 := by
  rw [abs_lt] at h1 h2 h3
  have hproduct : x * r1 ≤ x * (-2377545675 / 2 ^ 29 + x * (2872373668 / 2 ^ 31) + 1 / 10 ^ 6) :=
    mul_le_mul_of_nonneg_left (by linarith [h1.2]) hnonneg
  have hproduct' : x * r2 ≤ x * (3384280813 / 2 ^ 29 + x *
      (-2377545675 / 2 ^ 29 + x * (2872373668 / 2 ^ 31) + 1 / 10 ^ 6) + 1 / 10 ^ 6) :=
    mul_le_mul_of_nonneg_left (by linarith [h2.2]) hnonneg
  -- what the value at one has more
  have hslope : 0 ≤ 2872373668 / 2 ^ 31 * (1 + x + x ^ 2) - 2377545675 / 2 ^ 29 * (1 + x) +
      3384280813 / 2 ^ 29 := by
    linarith [sq_nonneg (x - 116 / 100)]
  have hrest := mul_nonneg (sub_nonneg.mpr hle) hslope
  have hsquare : x * x ≤ 1 := mul_le_one₀ hle hnonneg hle
  linarith [h3.2]

/-- The fraction of a power of two is at least one. -/
theorem exists_pow2Fraction (ha : IsNormalized a) (hpositive : a.isPositive = true)
    (hlow : -2 ^ 9 ≤ a.exponent) (hhigh : a.exponent ≤ 2) :
    ∃ r, pow2Fraction a = .ok r ∧ IsNormalized r ∧ r.isPositive = true ∧ 1 ≤ r.exponent ∧
      r.exponent ≤ 7 := by
  have hzeros : zeros a ≤ 2 ^ 10 := by
    rw [zeros]
    omega
  obtain ⟨r1, h1, hr1, hp1, hl1, hu1⟩ := exists_multiplyAdd_pos ha
    (by decide : IsNormalized ⟨-2, 3510493713, true⟩)
    (by decide : IsNormalized ⟨-3, 3207796260, true⟩) hzeros (by decide) (by decide) hpositive rfl
    rfl
  simp only at hl1 hu1
  obtain ⟨r2, h2, hr2, hp2, hl2, hu2⟩ := exists_multiplyAdd_pos ha
    (by decide : IsNormalized ⟨0, 3014961390, true⟩) hr1 hzeros (by decide)
    (by rw [zeros]; omega) hpositive rfl hp1
  simp only at hl2 hu2
  obtain ⟨r3, h3, hr3, hp3, hl3, hu3⟩ := exists_multiplyAdd_pos ha
    (by decide : IsNormalized ⟨1, 2147933481, true⟩) hr2 hzeros (by decide)
    (by rw [zeros]; omega) hpositive rfl hp2
  simp only at hl3 hu3
  refine ⟨r3, ?_, hr3, hp3, hl3, by omega⟩
  rw [pow2Fraction, cubic, bind_of_eq_ok h1, bind_of_eq_ok h2]
  exact h3

theorem exponent_le_of_abs_value_lt {n : ℤ} (h : IsNormalized a) (hlt : |value a| < 2 ^ n) :
    a.exponent ≤ n := by
  have hexponent : (2 : ℚ) ^ (a.exponent - 1) < 2 ^ n := (le_abs_value h).trans_lt hlt
  rw [zpow_lt_zpow_iff_right₀ one_lt_two] at hexponent
  omega

/-- The polynomial of a positive mantissa is negative. -/
theorem exists_cubic_log2 (ha : IsNormalized a) (hpositive : a.isPositive = true)
    (hexponent : a.exponent = 0) :
    ∃ d, cubic ⟨1, 2872373668, true⟩ ⟨3, 2377545675, false⟩ ⟨3, 3384280813, true⟩
        ⟨2, 3451338727, false⟩ a = .ok d ∧
      IsNormalized d ∧ value d < 0 ∧ -29 ≤ d.exponent ∧ d.exponent ≤ 6 := by
  have hnonneg : 0 ≤ value a := ((isPositive_iff ha).mp hpositive).le
  have hle : value a ≤ 1 := by
    have habs := abs_value_lt ha
    rw [hexponent, zpow_zero] at habs
    exact (le_abs_self _).trans habs.le
  have hvalue0 : value ⟨1, 2872373668, true⟩ = 2872373668 / 2 ^ 31 := by norm_num [value, signOf]
  have hvalue1 : value ⟨3, 2377545675, false⟩ = -2377545675 / 2 ^ 29 := by
    norm_num [value, signOf]
  have hvalue2 : value ⟨3, 3384280813, true⟩ = 3384280813 / 2 ^ 29 := by norm_num [value, signOf]
  have hvalue3 : value ⟨2, 3451338727, false⟩ = -3451338727 / 2 ^ 30 := by
    norm_num [value, signOf]
  obtain ⟨r1, h1, hr1, hl1, hu1, he1⟩ := exists_multiplyAdd_error (n := 3) ha
    (by decide : IsNormalized ⟨3, 2377545675, false⟩)
    (by decide : IsNormalized ⟨1, 2872373668, true⟩) hexponent (by decide) (by decide) (by decide)
    (by decide)
  rw [hvalue0, hvalue1] at he1
  have he1 := he1.trans (by norm_num : (2 : ℚ) ^ (3 + 2 - 32 : ℤ) < 1 / 10 ^ 6)
  simp only at hl1
  have hr1' := hr1.isNormalized_of_value_ne_zero (log2_first_neg hle he1).ne
  obtain ⟨r2, h2, hr2, hl2, hu2, he2⟩ := exists_multiplyAdd_error (n := 4) ha
    (by decide : IsNormalized ⟨3, 3384280813, true⟩) hr1' hexponent (by decide) hu1 (by decide)
    (by rw [zeros]; omega)
  rw [hvalue2] at he2
  have he2 := he2.trans (by norm_num : (2 : ℚ) ^ (4 + 2 - 32 : ℤ) < 1 / 10 ^ 6)
  simp only at hl2
  have hr2' := hr2.isNormalized_of_value_ne_zero (log2_second_pos hnonneg he1 he2).ne'
  obtain ⟨r3, h3, hr3, hl3, hu3, he3⟩ := exists_multiplyAdd_error (n := 5) ha
    (by decide : IsNormalized ⟨2, 3451338727, false⟩) hr2' hexponent (by decide) hu2 (by decide)
    (by rw [zeros]; omega)
  rw [hvalue3] at he3
  have he3 := he3.trans (by norm_num : (2 : ℚ) ^ (5 + 2 - 32 : ℤ) < 1 / 10 ^ 6)
  simp only at hl3
  have hneg := log2_third_neg hnonneg hle he1 he2 he3
  refine ⟨r3, ?_, hr3.isNormalized_of_value_ne_zero hneg.ne, hneg, by omega, hu3⟩
  rw [cubic, bind_of_eq_ok h1, bind_of_eq_ok h2]
  exact h3

/-- The logarithm of a positive float below one is negative. -/
theorem exists_log2 (ha : IsNormalized a) (hpositive : a.isPositive = true)
    (hlow : -300 ≤ a.exponent) (hhigh : a.exponent ≤ 0) :
    ∃ r, log2 a = .ok r ∧ IsNormalized r ∧ r.isPositive = false ∧ -30 ≤ r.exponent ∧
      r.exponent ≤ 9 := by
  obtain ⟨d, hcubic, hd, hneg, hdlow, hdhigh⟩ :=
    exists_cubic_log2 (a := { a with exponent := 0 }) ha hpositive rfl
  have hdnegative : d.isPositive = false := by
    rw [← Bool.not_eq_true, isPositive_iff hd]
    exact hneg.not_gt
  obtain ⟨n, hn, hnormal, hnvalue, hnsign⟩ :=
    exists_ofInt (n := a.exponent) (by omega) (by omega)
  have hlog : log2 a = add n d := by
    rw [log2, bind_of_eq_ok hcubic, bind_of_eq_ok hn]
  rw [hlog]
  by_cases hzero : a.exponent = 0
  · have hmantissa : n.mantissa = 0 := by
      rw [hzero, ofInt, if_pos rfl] at hn
      rw [← Except.ok.inj hn]
    exact ⟨d, by rw [add, if_pos hmantissa], hd, hdnegative, by omega, by omega⟩
  · obtain ⟨hnnormalized, hnpositive⟩ := hnsign hzero
    have hnnegative : n.isPositive = false := by
      rw [hnpositive, decide_eq_false_iff_not]
      omega
    have hnabs : |value n| = (-a.exponent : ℤ) := by
      rw [hnvalue, abs_of_nonpos (by exact_mod_cast hhigh), Int.cast_neg]
    have hnlow : 0 < n.exponent := by
      have hone : (1 : ℚ) ≤ |value n| := by
        rw [hnabs]
        exact_mod_cast (by omega : 1 ≤ -a.exponent)
      have hpow : (2 : ℚ) ^ (0 : ℤ) < 2 ^ n.exponent := by
        rw [zpow_zero]
        exact hone.trans_lt (abs_value_lt hnnormalized)
      exact (zpow_lt_zpow_iff_right₀ one_lt_two).mp hpow
    have hnle : |value n| ≤ 300 := by
      rw [hnabs]
      exact_mod_cast (by omega : -a.exponent ≤ 300)
    have hnhigh : n.exponent ≤ 9 :=
      exponent_le_of_abs_value_lt hnnormalized (hnle.trans_lt (by norm_num))
    obtain ⟨r, hadd, hr⟩ := exists_add_eq hnnormalized hd (by rw [zeros]; omega)
      (by rw [zeros]; omega)
    obtain ⟨hpositive, hle, hrnormalized⟩ := hr.same_sign (hnnegative.trans hdnegative.symm)
    have hge := hr.exponent_le
    refine ⟨r, hadd, hrnormalized, hpositive.trans hnnegative, by omega, ?_⟩
    apply exponent_le_of_abs_value_lt hrnormalized
    have hdle : |value d| < 2 ^ (6 : ℤ) :=
      (abs_value_lt hd).trans_le (zpow_le_zpow_right₀ one_le_two hdhigh)
    have herror : |value r - (value n + value d)| < 2 ^ (0 : ℤ) :=
      hr.error_lt.trans_le (zpow_le_zpow_right₀ one_le_two (by omega))
    calc |value r| = |value r - (value n + value d) + (value n + value d)| := by
          rw [sub_add_cancel]
      _ ≤ |value r - (value n + value d)| + (|value n| + |value d|) :=
          (abs_add_le _ _).trans (add_le_add_right (abs_add_le _ _) _)
      _ < 2 ^ (0 : ℤ) + (300 + 2 ^ (6 : ℤ)) := add_lt_add herror (add_lt_add_of_le_of_lt hnle hdle)
      _ < 2 ^ (9 : ℤ) := by norm_num

theorem setExponent_eq {exponent : ℤ} (hlow : -2 ^ 30 ≤ exponent) (hhigh : exponent ≤ 2 ^ 30) :
    setExponent a exponent = .ok { a with exponent } :=
  checked_eq hlow hhigh

/-- What is in front of the point. -/
theorem shiftRight_bounds {mantissa : ℕ} (hle : 0x80000000 ≤ mantissa) (hlt : mantissa < 2 ^ 32)
    (shift : ℕ) (hlow : 23 ≤ shift) (hhigh : shift ≤ 31) :
    1 ≤ mantissa >>> shift ∧ mantissa >>> shift < 2 ^ 9 := by
  have hpow : 2 ^ shift ≤ 2 ^ 31 := Nat.pow_le_pow_right two_pos hhigh
  have hpow' : 2 ^ 23 ≤ 2 ^ shift := Nat.pow_le_pow_right two_pos hlow
  rw [Nat.shiftRight_eq_div_pow]
  constructor
  · exact Nat.div_pos (hpow.trans hle) (Nat.two_pow_pos shift)
  · apply Nat.div_lt_of_lt_mul
    calc mantissa < 2 ^ 23 * 2 ^ 9 := hlt
      _ ≤ 2 ^ shift * 2 ^ 9 := Nat.mul_le_mul_right _ hpow'

theorem ofInt_one : ofInt 1 = .ok ⟨1, 0x80000000, true⟩ := by
  obtain ⟨k, hloop, hle, hlt⟩ := normalizeLeft_spec 32 one_pos (by norm_num : 1 < 2 ^ 32)
  rw [one_mul] at hle hlt
  have hk : k = 31 := by
    have hlow : 31 ≤ k := (Nat.pow_le_pow_iff_right one_lt_two).mp hle
    have hhigh : k < 32 := (Nat.pow_lt_pow_iff_right one_lt_two).mp hlt
    omega
  rw [hk] at hloop
  change setAssert (normalizeLeft 32 1).1 (normalizeLeft 32 1).2 true = _
  rw [hloop]
  rfl

/-- One and a negative float below it, or what is left of one. -/
theorem exists_one_add (ha : IsNormalized a) (hlow : -40 ≤ a.exponent) (hhigh : a.exponent ≤ 0) :
    ∃ r, add ⟨1, 0x80000000, true⟩ a = .ok r ∧ IsNormalized r ∧ r.isPositive = true ∧
      -2 ^ 9 ≤ r.exponent ∧ r.exponent ≤ 2 := by
  obtain ⟨r, hadd, hr⟩ := exists_add_eq (by decide : IsNormalized ⟨1, 0x80000000, true⟩) ha
    (by decide) (by rw [zeros]; omega)
  have hlt : a.exponent < (⟨1, 0x80000000, true⟩ : WarthogCustomFloat).exponent := by
    simp only
    omega
  obtain ⟨hpositive, hnormalized⟩ := hr.left_sign hlt
  have hle := hr.le_exponent
  have hge := hr.exponent_le
  rw [max_eq_left hlt.le] at hle hge
  exact ⟨r, hadd, hnormalized, hpositive, by simp only at hle; omega, by simp only at hge; omega⟩

/-- A negative power of two is not above one. -/
theorem exists_pow2 (ha : IsNormalized a) (hnegative : a.isPositive = false)
    (hlow : -40 ≤ a.exponent) (hhigh : a.exponent ≤ 9) :
    ∃ r, pow2 a = .ok r ∧ IsNormalized r ∧ r.isPositive = true ∧ -520 ≤ r.exponent ∧
      r.exponent ≤ 0 := by
  rw [pow2, if_neg ha.ne_zero, if_neg (by omega), hnegative]
  split
  · obtain ⟨hone, hlt⟩ := shiftRight_bounds ha.1 ha.2 ((32 - a.exponent) % 32).toNat (by omega)
      (by omega)
    have hfrac : a.mantissa <<< (a.exponent % 32).toNat % 2 ^ 32 < 2 ^ 32 :=
      Nat.mod_lt _ (by decide)
    simp only
    generalize a.mantissa >>> ((32 - a.exponent) % 32).toNat = e at hone hlt ⊢
    generalize a.mantissa <<< (a.exponent % 32).toNat % 2 ^ 32 = mFrac at hfrac ⊢
    by_cases hzero : mFrac = 0
    · -- without a fraction the power is turned over
      have hpower : ofPower e true = .ok ⟨e + 1, 0x80000000, true⟩ := by
        rw [ofPower_eq (by rw [IsValidExponent]; omega)]
        exact checked_eq (by simp only; omega) (by simp only; omega)
      refine ⟨⟨-(e + 1) + 2, 0x80000000, true⟩, ?_, ⟨le_rfl, by norm_num⟩, rfl,
        by simp only; omega, by simp only; omega⟩
      rw [if_pos hzero, if_neg (by decide), bind_of_eq_ok hpower,
        bind_of_eq_ok (setExponent_eq (by simp only; omega) (by simp only; omega))]
      exact setExponent_eq (by simp only; omega) (by simp only; omega)
    · obtain ⟨frac, hshift, hfracpositive, hfracle, hfraclt, hfrachigh, hfraclow, -⟩ :=
        exists_shiftLeft 0 (Nat.pos_of_ne_zero hzero) hfrac true
      obtain ⟨g, hsub, hg, hpositive, hglow, hghigh⟩ :=
        exists_one_add (a := neg frac) ⟨hfracle, hfraclt⟩ (by change -40 ≤ frac.exponent; omega)
          hfrachigh
      obtain ⟨r, hfraction, hr, hrpositive, hrlow, hrhigh⟩ :=
        exists_pow2Fraction hg hpositive hglow hghigh
      refine ⟨{ r with exponent := -(r.exponent + (e - 1)) }, ?_, hr, hrpositive,
        by simp only; omega, by simp only; omega⟩
      rw [checked_eq (by omega) (by omega)] at hshift
      rw [if_neg hzero, bind_of_eq_ok hshift, if_neg (by decide), bind_of_eq_ok ofInt_one, sub,
        bind_of_eq_ok hsub, bind_of_eq_ok hfraction,
        bind_of_eq_ok (setExponent_eq (by omega) (by omega))]
      exact setExponent_eq (by simp only; omega) (by simp only; omega)
  · -- one is above the float
    obtain ⟨g, hadd, hg, hpositive, hglow, hghigh⟩ := exists_one_add ha hlow (by omega)
    obtain ⟨r, hfraction, hr, hrpositive, hrlow, hrhigh⟩ :=
      exists_pow2Fraction hg hpositive hglow hghigh
    refine ⟨{ r with exponent := -r.exponent + 1 }, ?_, hr, hrpositive, by simp only; omega,
      by simp only; omega⟩
    rw [if_neg (by decide), bind_of_eq_ok ofInt_one, bind_of_eq_ok hadd, bind_of_eq_ok hfraction,
      bind_of_eq_ok (setExponent_eq (by omega) (by omega))]
    exact setExponent_eq (by simp only; omega) (by simp only; omega)

/-- The power of a positive float below one to a positive exponent below one. -/
theorem exists_pow (ha : IsNormalized a) (hpositive : a.isPositive = true)
    (hlow : -300 ≤ a.exponent) (hhigh : a.exponent ≤ 0) (hb : IsNormalized b)
    (hbpositive : b.isPositive = true) (hbexponent : b.exponent = 0) :
    ∃ r, pow a b = .ok r ∧ IsNormalized r ∧ r.isPositive = true ∧ -520 ≤ r.exponent ∧
      r.exponent ≤ 0 := by
  obtain ⟨l, hlog, hl, hlnegative, hllow, hlhigh⟩ := exists_log2 ha hpositive hlow hhigh
  obtain ⟨y, hmul, hy⟩ := exists_mul_eq hb hl (by rw [zeros]; omega) (by rw [zeros]; omega)
  have hle := hy.le_exponent
  have hge := hy.exponent_le
  have hnegative : y.isPositive = false := by
    rw [hy.isPositive_eq, hbpositive, hlnegative]
    rfl
  rw [pow, bind_of_eq_ok hlog, bind_of_eq_ok hmul]
  exact exists_pow2 hy.isNormalized hnegative (by omega) (by omega)

end smallExponents

end WarthogCustomFloat

structure WarthogTarget where
  data : ℕ
  isJanusHash : Bool
deriving DecidableEq

namespace WarthogTarget

open WarthogCustomFloat

section difficulty

def hardestTargetHost : ℕ := 0xFF800000

def janusHashMaxTargetHost : ℕ := 0xe00fffff

/-- `WarthogUtils.Frexp` of a double. -/
def frexp : FloatingPoint → FloatingPoint × ℤ
  | .finite x =>
      if x = 0 then (.finite 0, 0)
      else (.finite (WarthogCustomFloat.frexp x).1, (WarthogCustomFloat.frexp x).2)
  | x => (x, 0)

/-- A scaled number, rounded down to `uint`. -/
def scaledFloor (scale : ℕ) : FloatingPoint → ℕ
  | .finite x => (⌊x * 2 ^ scale⌋ % 2 ^ 32).toNat
  | _ => 0

/-- The digits of an inverse, from the least to the most. -/
def digits (inv : FloatingPoint) (scale least most : ℕ) : ℕ :=
  if inv = .finite 2 then most
  else
    let digits := scaledFloor scale inv
    if digits < least then least else if most < digits then most else digits

def set (width zeros bytes : ℕ) : ℕ := zeros <<< width % 2 ^ 32 ||| bytes

def ofDifficulty (rounding : Rounding) (difficulty : FloatingPoint) (isJanusHash : Bool) :
    WarthogTarget :=
  let difficulty := if FloatingPoint.lt difficulty (.finite 1) then .finite 1 else difficulty
  let (coef, exp) := frexp difficulty
  let inv := FloatingPoint.div rounding (.finite 1) coef
  let zeros := ((exp - 1) % 2 ^ 32).toNat
  if isJanusHash then
    if 3 * 256 ≤ zeros then ⟨janusHashMaxTargetHost, true⟩
    else ⟨set 22 zeros (digits inv 21 0x00200000 0x003fffff), true⟩
  else if 256 - 24 ≤ exp - 1 then ⟨hardestTargetHost, false⟩
  else ⟨set 24 zeros (digits inv 23 0x00800000 0x00FFFFFF), false⟩

end difficulty

variable (wt : WarthogTarget)

def zeros8 : ℕ := wt.data >>> 24

def zeros10 : ℕ := wt.data >>> 22

def bits22 : ℕ := wt.data &&& 0x003FFFFF

def bits24 : ℕ := wt.data &&& 0x00FFFFFF

/-- The number below which a header has to be, the inverse of the difficulty. -/
def number : ℚ :=
  if wt.isJanusHash then wt.bits22 / 2 ^ (wt.zeros10 + 22) else wt.bits24 / 2 ^ (wt.zeros8 + 24)

/-- The operator `<` of a float and a target. -/
def ltTarget (wcf : WarthogCustomFloat) : Bool :=
  if !wt.isJanusHash then false
  else if zeros wcf < wt.zeros10 then false
  else if wt.zeros10 < zeros wcf then true
  else decide (wcf.mantissa < wt.bits22 <<< 10)

section operators

variable {wt} {v : WarthogCustomFloat}

theorem bits22_lt (wt : WarthogTarget) : wt.bits22 < 2 ^ 22 := by
  have hmod : wt.bits22 = wt.data % 2 ^ 22 := Nat.and_two_pow_sub_one_eq_mod wt.data 22
  rw [hmod]
  exact Nat.mod_lt _ (Nat.two_pow_pos 22)

theorem digits_bounds {least most : ℕ} (h : least ≤ most) (inv : FloatingPoint) (scale : ℕ) :
    least ≤ digits inv scale least most ∧ digits inv scale least most ≤ most := by
  rw [digits]
  dsimp only
  split_ifs <;> omega

theorem bits22_set {zeros bytes : ℕ} (hzeros : zeros < 3 * 256) (hbytes : bytes < 2 ^ 22)
    (isJanusHash : Bool) : bits22 ⟨set 22 zeros bytes, isJanusHash⟩ = bytes := by
  have hmod : zeros <<< 22 % 2 ^ 32 = zeros <<< 22 := by
    apply Nat.mod_eq_of_lt
    rw [Nat.shiftLeft_eq]
    omega
  calc bits22 ⟨set 22 zeros bytes, isJanusHash⟩
      = (zeros <<< 22 + bytes) % 2 ^ 22 := by
        rw [Nat.shiftLeft_add_eq_or_of_lt hbytes, ← Nat.and_two_pow_sub_one_eq_mod, bits22, set,
          hmod]
    _ = bytes := by
        rw [Nat.shiftLeft_eq]
        omega

/-- A target has its first bit set, or is below what a header reaches. -/
theorem ofDifficulty_janusHash (rounding : Rounding) (difficulty : FloatingPoint) :
    (ofDifficulty rounding difficulty true).zeros10 = 896 ∨
      2 ^ 21 ≤ (ofDifficulty rounding difficulty true).bits22 := by
  rw [ofDifficulty]
  simp only [if_true]
  generalize frexp _ = significand
  split
  · exact Or.inl (by decide)
  · rename_i hzeros
    have hdigits := digits_bounds (by decide : 0x00200000 ≤ 0x003fffff)
      (FloatingPoint.div rounding (.finite 1) significand.1) 21
    rw [bits22_set (not_le.mp hzeros) (by omega)]
    exact Or.inr hdigits.1

theorem isJanusHash_ofDifficulty (rounding : Rounding) (difficulty : FloatingPoint)
    (isJanusHash : Bool) :
    (ofDifficulty rounding difficulty isJanusHash).isJanusHash = isJanusHash := by
  rw [ofDifficulty]
  dsimp only
  generalize frexp _ = significand
  cases isJanusHash
  · simp only [Bool.false_eq_true, if_false]
    split <;> rfl
  · simp only [if_true]
    split <;> rfl

/-- Without a Janus target the operator is false. -/
theorem ltTarget_of_not_janusHash (h : wt.isJanusHash = false) : wt.ltTarget v = false := by
  rw [ltTarget, h]
  rfl

theorem ltTarget_eq_true_iff (hv : IsNormalized v) (hpositive : v.isPositive = true)
    (hle : v.exponent ≤ 0) (h : wt.isJanusHash = true)
    (hbits : zeros v < wt.zeros10 ∨ 2 ^ 21 ≤ wt.bits22) :
    wt.ltTarget v = true ↔ value v < wt.number := by
  have hbits' : (wt.bits22 : ℚ) < 2 ^ 22 := by exact_mod_cast bits22_lt wt
  have hpos : 0 < value v := (isPositive_iff hv).mp hpositive
  have hvalue : |value v| = value v := abs_of_pos hpos
  have hlow := le_abs_value hv
  have hhigh := abs_value_lt hv
  have hexponent : v.exponent = -(zeros v : ℤ) := by
    rw [zeros]
    omega
  rw [hvalue, hexponent] at hlow hhigh
  have hnumber : wt.number = wt.bits22 * 2 ^ (-(wt.zeros10 : ℤ) - 22) := by
    rw [number, if_pos h, div_eq_mul_inv, ← zpow_natCast, ← zpow_neg]
    congr 2
    push_cast
    ring
  rw [ltTarget, h, hnumber]
  simp only [Bool.not_true, Bool.false_eq_true, if_false]
  have hunit : (0 : ℚ) < 2 ^ (-(wt.zeros10 : ℤ) - 22) := zpow_pos two_pos _
  rcases lt_trichotomy (zeros v) wt.zeros10 with hlt | heq | hgt
  · -- the target has more zeros
    rw [if_pos hlt]
    apply iff_of_false Bool.false_ne_true
    rw [not_lt]
    calc (wt.bits22 : ℚ) * 2 ^ (-(wt.zeros10 : ℤ) - 22)
        ≤ 2 ^ 22 * 2 ^ (-(wt.zeros10 : ℤ) - 22) := mul_le_mul_of_nonneg_right hbits'.le hunit.le
      _ = 2 ^ (-(wt.zeros10 : ℤ)) := (two_zpow_eq_mul 22 (by omega)).symm
      _ ≤ 2 ^ (-(zeros v : ℤ) - 1) := zpow_le_zpow_right₀ one_le_two (by omega)
      _ ≤ value v := hlow
  · rw [if_neg heq.not_lt, if_neg heq.not_gt, decide_eq_true_eq]
    have hscale : (wt.bits22 : ℚ) * (2 : ℚ) ^ (-(wt.zeros10 : ℤ) - 22) =
        ((wt.bits22 <<< 10 : ℕ) : ℚ) * ulp v := by
      have hpow : (2 : ℚ) ^ (-(wt.zeros10 : ℤ) - 22) = 2 ^ 10 * ulp v :=
        two_zpow_eq_mul 10 (by omega)
      rw [hpow, Nat.shiftLeft_eq]
      push_cast
      ring
    rw [hscale, ← hvalue, abs_value, mul_lt_mul_iff_left₀ (ulp_pos v), Nat.cast_lt]
  · -- the target has less zeros, and its first bit is set
    rw [if_neg hgt.not_gt, if_pos hgt]
    apply iff_of_true rfl
    have hfirst : (2 ^ 21 : ℚ) ≤ wt.bits22 := by
      exact_mod_cast hbits.resolve_left hgt.not_gt
    calc value v < 2 ^ (-(zeros v : ℤ)) := hhigh
      _ ≤ 2 ^ (-(wt.zeros10 : ℤ) - 1) := zpow_le_zpow_right₀ one_le_two (by omega)
      _ = 2 ^ 21 * 2 ^ (-(wt.zeros10 : ℤ) - 22) := two_zpow_eq_mul 21 (by omega)
      _ ≤ wt.bits22 * 2 ^ (-(wt.zeros10 : ℤ) - 22) :=
          mul_le_mul_of_nonneg_right hfirst hunit.le

end operators

end WarthogTarget

inductive WarthogNetworkType
  | testnet
  | mainnet
deriving DecidableEq

structure WarthogJob where
  network : WarthogNetworkType
  height : ℕ
  isJanusHash : Bool
  blockTargetValue : WarthogTarget

namespace WarthogJob

open WarthogCustomFloat

/-- About 0.005. -/
def proofOfBalancedWorkC : WarthogCustomFloat := ⟨-7, 2748779069, true⟩

/-- About 0.7. -/
def proofOfBalancedWorkExponent : WarthogCustomFloat := ⟨0, 3006477107, true⟩

def janusHashRetargetBlockHeight : ℕ := 745200

def janusHashV2RetargetBlockHeight : ℕ := 769680

def janusHashV6RetargetBlockHeight : ℕ := 879500

def init (rounding : Rounding) (network : WarthogNetworkType) (height : ℕ)
    (difficulty : FloatingPoint) (isJanusHash : Bool) : WarthogJob where
  network
  height
  isJanusHash
  blockTargetValue := .ofDifficulty rounding difficulty isJanusHash

/-- A hash must not be too small. -/
def limited (sha256TFloat : WarthogCustomFloat) : WarthogCustomFloat :=
  if lt sha256TFloat proofOfBalancedWorkC then proofOfBalancedWorkC else sha256TFloat

def balancedWork (verusFloat sha256TFloat : WarthogCustomFloat) :
    Except FloatError WarthogCustomFloat := do
  mul verusFloat (← pow sha256TFloat proofOfBalancedWorkExponent)

variable (job : WarthogJob)

def headerSolutionValue (verusFloat sha256TFloat : WarthogCustomFloat) :
    Except FloatError WarthogCustomFloat :=
  match job.network with
  | .testnet => balancedWork verusFloat (limited sha256TFloat)
  | .mainnet =>
      if job.isJanusHash = true ∧ janusHashRetargetBlockHeight < job.height then
        if janusHashV2RetargetBlockHeight < job.height then
          if janusHashV6RetargetBlockHeight < job.height then
            balancedWork verusFloat (limited sha256TFloat)
          else balancedWork verusFloat sha256TFloat
        else mul verusFloat sha256TFloat
      else balancedWork verusFloat sha256TFloat

/-- The value of the header is compared with the target. -/
def ComparesValue : Prop :=
  job.network = .testnet ∨ job.isJanusHash = true ∧ janusHashRetargetBlockHeight < job.height

instance : Decidable (ComparesValue job) := inferInstanceAs (Decidable (_ ∨ _))

/-- Before the first of the heights a hash is compared by its bytes. -/
def isBlockCandidate (headerSolutionValue : WarthogCustomFloat) (sha256DMeetsTarget : Bool) :
    Bool :=
  match job.network with
  | .testnet => job.blockTargetValue.ltTarget headerSolutionValue
  | .mainnet =>
      if job.isJanusHash = true ∧ janusHashRetargetBlockHeight < job.height then
        job.blockTargetValue.ltTarget headerSolutionValue
      else sha256DMeetsTarget

section tests

variable {job} {verusFloat sha256TFloat : WarthogCustomFloat}

/-- A float of a hash. -/
structure IsHashFloat (wcf : WarthogCustomFloat) : Prop where
  isNormalized : IsNormalized wcf
  isPositive : wcf.isPositive = true
  le_exponent : -287 ≤ wcf.exponent
  exponent_le : wcf.exponent ≤ 0

theorem exists_isHashFloat (hash : Vector UInt8 32) :
    ∃ wcf, ofHash hash.toList = .ok wcf ∧ IsHashFloat wcf := by
  obtain ⟨wcf, hchecked, hnormalized, hpositive, hle, hge, -⟩ := exists_ofHash hash.toList
  have hlength : (hash.toList.takeWhile (· = 0)).length ≤ 32 := by
    apply (List.takeWhile_prefix _).length_le.trans
    rw [Vector.length_toList]
  refine ⟨wcf, hchecked.trans (checked_eq (by omega) (by omega)), hnormalized, hpositive, by omega,
    by omega⟩

theorem isHashFloat_proofOfBalancedWorkC : IsHashFloat proofOfBalancedWorkC where
  isNormalized := by decide
  isPositive := rfl
  le_exponent := by decide
  exponent_le := by decide

theorem IsHashFloat.limited (h : IsHashFloat sha256TFloat) :
    IsHashFloat (limited sha256TFloat) := by
  rw [WarthogJob.limited]
  split
  · exact isHashFloat_proofOfBalancedWorkC
  · exact h

/-- The floor of a hash is taken as it should be. -/
theorem IsHashFloat.lt_proofOfBalancedWorkC_iff (h : IsHashFloat sha256TFloat) :
    lt sha256TFloat proofOfBalancedWorkC = true ↔
      value sha256TFloat < value proofOfBalancedWorkC :=
  lt_eq_true_iff_value h.isNormalized isHashFloat_proofOfBalancedWorkC.isNormalized h.isPositive rfl
    h.exponent_le isHashFloat_proofOfBalancedWorkC.exponent_le

/-- The value of a header is a positive number below one. -/
structure IsHeaderValue (wcf : WarthogCustomFloat) : Prop where
  isNormalized : IsNormalized wcf
  isPositive : wcf.isPositive = true
  le_exponent : -810 ≤ wcf.exponent
  exponent_le : wcf.exponent ≤ 0

theorem IsHashFloat.exists_mul (hverus : IsHashFloat verusFloat) {wcf : WarthogCustomFloat}
    (hnormalized : IsNormalized wcf) (hpositive : wcf.isPositive = true)
    (hlow : -520 ≤ wcf.exponent) (hhigh : wcf.exponent ≤ 0) :
    ∃ v, mul verusFloat wcf = .ok v ∧ IsHeaderValue v := by
  have hle := hverus.le_exponent
  have hge := hverus.exponent_le
  obtain ⟨v, hmul, hv⟩ := exists_mul_eq hverus.isNormalized hnormalized (by rw [zeros]; omega)
    (by rw [zeros]; omega)
  have hvle := hv.le_exponent
  have hvge := hv.exponent_le
  refine ⟨v, hmul, hv.isNormalized, ?_, by omega, by omega⟩
  rw [hv.isPositive_eq, hverus.isPositive, hpositive]
  rfl

theorem IsHashFloat.exists_balancedWork (hverus : IsHashFloat verusFloat)
    (hsha : IsHashFloat sha256TFloat) :
    ∃ v, balancedWork verusFloat sha256TFloat = .ok v ∧ IsHeaderValue v := by
  have hle := hsha.le_exponent
  obtain ⟨p, hpow, hp, hpositive, hlow, hhigh⟩ := exists_pow hsha.isNormalized hsha.isPositive
    (by omega) hsha.exponent_le (by decide : IsNormalized proofOfBalancedWorkExponent) rfl rfl
  obtain ⟨v, hmul, hv⟩ := hverus.exists_mul hp hpositive hlow hhigh
  exact ⟨v, (bind_of_eq_ok hpow).trans hmul, hv⟩

/-- Every rule of the job gives a header its value. -/
theorem exists_headerSolutionValue (job : WarthogJob) (hverus : IsHashFloat verusFloat)
    (hsha : IsHashFloat sha256TFloat) :
    ∃ v, headerSolutionValue job verusFloat sha256TFloat = .ok v ∧ IsHeaderValue v := by
  have hle := hsha.le_exponent
  rw [headerSolutionValue]
  split
  · exact hverus.exists_balancedWork hsha.limited
  · split_ifs
    · exact hverus.exists_balancedWork hsha.limited
    · exact hverus.exists_balancedWork hsha
    · exact hverus.exists_mul hsha.isNormalized hsha.isPositive (by omega) hsha.exponent_le
    · exact hverus.exists_balancedWork hsha

theorem ComparesValue.isBlockCandidate_eq (h : ComparesValue job) (v : WarthogCustomFloat)
    (sha256DMeetsTarget : Bool) :
    isBlockCandidate job v sha256DMeetsTarget = job.blockTargetValue.ltTarget v := by
  rw [isBlockCandidate]
  obtain hnetwork | hheight := h
  · rw [hnetwork]
  · cases job.network
    · rfl
    · exact if_pos hheight

/-- The test of a target of its own difficulty is right when the target is one of Janus, or is not
met. -/
theorem IsHeaderValue.ltTarget_iff {v : WarthogCustomFloat} (hv : IsHeaderValue v)
    (rounding : Rounding) (difficulty : FloatingPoint) (isJanusHash : Bool) :
    let target := WarthogTarget.ofDifficulty rounding difficulty isJanusHash
    (target.ltTarget v = true ↔ value v < target.number) ↔
      isJanusHash = true ∨ target.number ≤ value v := by
  intro target
  have hjanus : target.isJanusHash = isJanusHash :=
    WarthogTarget.isJanusHash_ofDifficulty rounding difficulty isJanusHash
  cases isJanusHash
  · rw [WarthogTarget.ltTarget_of_not_janusHash hjanus]
    simp
  · apply iff_of_true _ (Or.inl rfl)
    apply WarthogTarget.ltTarget_eq_true_iff hv.isNormalized hv.isPositive hv.exponent_le hjanus
    have hle := hv.le_exponent
    obtain hhardest | hbits := WarthogTarget.ofDifficulty_janusHash rounding difficulty
    · have hge := hv.exponent_le
      left
      rw [hhardest, zeros]
      omega
    · exact Or.inr hbits

end tests

/-- The operators agree with the order of two numbers exactly when these are separated, and of two
equal numbers the left one is above the right one. The floor of a hash is taken as it should be,
and so is the test of a block, unless a header below a target that is not one of Janus is met. -/
theorem comparisons_iff (rounding : Rounding) :
    (∀ a b, AgreesWithOrder a b ↔ Separated a b) ∧
    (∀ a b, ExactlyOne (lt a b = true) (value a = value b) (gt a b = true) ↔
      value a ≠ value b) ∧
    (∀ a b, ExactlyOne (lt a b = true) (equals a b = true) (gt a b = true) ↔
      ¬ equals a b = true) ∧
    (∀ hash : Vector UInt8 32, ∃ wcf, ofHash hash.toList = .ok wcf ∧
      (lt wcf proofOfBalancedWorkC = true ↔ value wcf < value proofOfBalancedWorkC)) ∧
    ∀ (network : WarthogNetworkType) (height : ℕ) (difficulty : FloatingPoint) (isJanusHash : Bool)
      (sha256T verusHash : Vector UInt8 32), ∃ sha256TFloat verusFloat v,
      let job := init rounding network height difficulty isJanusHash
      ofHash sha256T.toList = .ok sha256TFloat ∧ ofHash verusHash.toList = .ok verusFloat ∧
      headerSolutionValue job verusFloat sha256TFloat = .ok v ∧
      (ComparesValue job → ∀ sha256DMeetsTarget,
        ((isBlockCandidate job v sha256DMeetsTarget = true ↔
          value v < job.blockTargetValue.number) ↔
          isJanusHash = true ∨ job.blockTargetValue.number ≤ value v)) := by
  refine ⟨fun a b => agreesWithOrder_iff, fun a b => ?_, fun a b => ?_, fun hash => ?_, ?_⟩
  · rw [gt_eq_true_iff]
    exact exactlyOne_not_iff _ _
  · rw [gt_eq_true_iff]
    exact exactlyOne_not_iff _ _
  · obtain ⟨wcf, hreturned, hwcf⟩ := exists_isHashFloat hash
    exact ⟨wcf, hreturned, hwcf.lt_proofOfBalancedWorkC_iff⟩
  · intro network height difficulty isJanusHash sha256T verusHash
    obtain ⟨sha256TFloat, hsha, hsha'⟩ := exists_isHashFloat sha256T
    obtain ⟨verusFloat, hverus, hverus'⟩ := exists_isHashFloat verusHash
    obtain ⟨v, hvalue, hv⟩ := exists_headerSolutionValue
      (init rounding network height difficulty isJanusHash) hverus' hsha'
    refine ⟨sha256TFloat, verusFloat, v, hsha, hverus, hvalue, fun h sha256DMeetsTarget => ?_⟩
    rw [h.isBlockCandidate_eq]
    exact hv.ltTarget_iff rounding difficulty isJanusHash

/-- One is not below two. -/
theorem not_agreesWithOrder : ¬ ∀ m n a b, ofPower m true = .ok a → ofPower n true = .ok b →
    AgreesWithOrder a b ∧
      ExactlyOne (lt a b = true) (equals a b = true) (gt a b = true) := by
  intro h
  obtain ⟨hagrees, -⟩ := h 0 1 ⟨1, 0x80000000, true⟩ ⟨2, 0x80000000, true⟩ (by decide) (by decide)
  have hlt : lt ⟨1, 0x80000000, true⟩ ⟨2, 0x80000000, true⟩ = true :=
    hagrees.lt_iff.mpr (by norm_num [value, signOf])
  exact absurd hlt (by decide)

end WarthogJob

end Miningcore.Warthog
