import Miningcore.Foundation.FloatingPoint
import Mathlib.Algebra.Order.Floor.Ring
import Mathlib.Algebra.Order.Round
import Mathlib.Data.Int.Log
import Mathlib.Data.Rat.Floor
import Mathlib.Tactic.FieldSimp
import Mathlib.Tactic.Linarith
import Mathlib.Tactic.NormNum
import Mathlib.Tactic.Positivity
import Mathlib.Tactic.Ring

/-!
# The floats of Warthog

A float is a sign, a mantissa of 32 bits behind the point and an exponent. In normal form
the first bit of the mantissa is set, unless all of it is zero.

## Implementation notes

Exponents and mantissas are numbers; sums of exponents are taken in `int`. A double is a
rational number, an infinity or no number. The loop to the left does not end for a zero
mantissa in the source, where no caller passes one; here it leaves it as it is.
-/

namespace Miningcore.Warthog

open Foundation

structure WarthogCustomFloat where
  exponent : ℤ
  mantissa : ℕ
  isPositive : Bool
deriving DecidableEq

/-- The exceptions, with the value that is refused. -/
inductive FloatError
  | invalidExponent (value : ℤ)
  | invalidMantissa (value : ℕ)
  | invalidArgument (exponent : ℤ)
deriving DecidableEq

namespace WarthogCustomFloat

/-- The exponents between the smallest and the largest `int`. -/
def IsValidExponent (exponent : ℤ) : Prop := -2 ^ 31 < exponent ∧ exponent < 2 ^ 31 - 1

instance : DecidablePred IsValidExponent := fun _ => inferInstanceAs (Decidable (_ ∧ _))

def setAssert (exponent : ℤ) (mantissa : ℕ) (isPositive : Bool) :
    Except FloatError WarthogCustomFloat :=
  if ¬ IsValidExponent exponent then .error (.invalidExponent exponent)
  else if mantissa < 2 ^ 32 then .ok ⟨exponent, mantissa, isPositive⟩
  else .error (.invalidMantissa mantissa)

/-- The loop of `ShiftLeft`. -/
def normalizeLeft (exponent : ℤ) (mantissa : ℕ) : ℤ × ℕ :=
  if 0 < mantissa ∧ mantissa < 0x80000000 then normalizeLeft (exponent - 1) (mantissa <<< 1)
  else (exponent, mantissa)
termination_by 0x80000000 - mantissa
decreasing_by rw [Nat.shiftLeft_eq]; omega

def shiftLeft (exponent : ℤ) (mantissa : ℕ) (isPositive : Bool) :
    Except FloatError WarthogCustomFloat :=
  setAssert (normalizeLeft exponent mantissa).1 (normalizeLeft exponent mantissa).2 isPositive

/-- The loop of `ShiftRight`. -/
def normalizeRight (exponent : ℤ) (mantissa : ℕ) : ℤ × ℕ :=
  if 2 ^ 32 ≤ mantissa then normalizeRight (exponent + 1) (mantissa >>> 1)
  else (exponent, mantissa)
termination_by mantissa
decreasing_by rw [Nat.shiftRight_eq_div_pow]; omega

def shiftRight (exponent : ℤ) (mantissa : ℕ) (isPositive : Bool) :
    Except FloatError WarthogCustomFloat :=
  setAssert (normalizeRight exponent mantissa).1 (normalizeRight exponent mantissa).2 isPositive

def zero : WarthogCustomFloat := ⟨0, 0, true⟩

def one : WarthogCustomFloat := ⟨0, 1, true⟩

section constructors

/-- So many bytes at the front, followed by ones where the hash ends. -/
def readData : ℕ → ℕ → List UInt8 → ℕ
  | 0, tmpData, _ => tmpData
  | n + 1, tmpData, [] => readData n (tmpData <<< 8 ||| 0xFF) []
  | n + 1, tmpData, byte :: hash => readData n (tmpData <<< 8 ||| byte.toNat) hash

def ofHash (hash : List UInt8) : Except FloatError WarthogCustomFloat :=
  let zeros := hash.takeWhile (· = 0)
  shiftLeft (-8 * zeros.length) (readData 4 0 (hash.dropWhile (· = 0))) true

/-- `WarthogUtils.Frexp` of a number: a significand from a half to one, and its exponent. -/
def frexp (x : ℚ) : ℚ × ℤ :=
  let exponent := Int.log 2 |x| + 1
  (x / 2 ^ exponent, exponent)

/-- The mantissa is rounded up. -/
def ofDouble : FloatingPoint → Except FloatError WarthogCustomFloat
  | .nan => .error (.invalidMantissa 0)
  | .infinite _ => .error (.invalidMantissa 0)
  | .finite d =>
      if d = 0 then .ok ⟨0, 0, true⟩
      else
        let (r, e) := frexp d
        let m := ⌈|r| * 2 ^ 32⌉₊
        if m < 2 ^ 32 ∧ m ≠ 0 then .ok ⟨e, m, decide (0 ≤ r)⟩ else .error (.invalidMantissa m)

/-- The negative of the least `int` is itself, and is converted to a large `ulong`. -/
def ofInt (mantissa : ℤ) : Except FloatError WarthogCustomFloat :=
  if mantissa = 0 then .ok ⟨0, 0, true⟩
  else
    let magnitude := if mantissa < 0 then (-mantissa).bmod (2 ^ 32) else mantissa
    shiftLeft 32 (magnitude % 2 ^ 64).toNat (decide (0 ≤ mantissa))

/-- A power of two. -/
def ofPower (exponent : ℤ) (isPositive : Bool) : Except FloatError WarthogCustomFloat :=
  if ¬ IsValidExponent exponent then .error (.invalidArgument exponent)
  else setAssert (exponent + 1) 0x80000000 isPositive

end constructors

section operators

variable (wcf1 wcf2 : WarthogCustomFloat)

def neg (wcf : WarthogCustomFloat) : WarthogCustomFloat :=
  { wcf with isPositive := !wcf.isPositive }

/-- The sum, with the larger exponent on the left. The shift count is masked. -/
def addAligned : Except FloatError WarthogCustomFloat :=
  let shift := (wcf1.exponent - wcf2.exponent).bmod (2 ^ 32)
  if 64 ≤ shift then .ok wcf1
  else
    let tmp := wcf1.mantissa
    let operand := wcf2.mantissa >>> (shift % 64).toNat
    if wcf1.isPositive = wcf2.isPositive then
      shiftRight wcf1.exponent (tmp + operand) wcf1.isPositive
    else if operand = tmp then .ok { wcf1 with mantissa := 0 }
    -- the sign changes
    else if tmp < operand then shiftLeft wcf2.exponent (operand - tmp) wcf2.isPositive
    else shiftLeft wcf1.exponent (tmp - operand) wcf1.isPositive

def add : Except FloatError WarthogCustomFloat :=
  if wcf1.mantissa = 0 then .ok wcf2
  else if wcf2.mantissa = 0 then .ok wcf1
  else if wcf1.exponent < wcf2.exponent then addAligned wcf2 wcf1
  else addAligned wcf1 wcf2

def sub : Except FloatError WarthogCustomFloat := add wcf1 (neg wcf2)

def mul : Except FloatError WarthogCustomFloat :=
  if wcf1.mantissa = 0 ∨ wcf2.mantissa = 0 then .ok { wcf1 with mantissa := 0 }
  else
    let e := (wcf1.exponent + wcf2.exponent).bmod (2 ^ 32)
    let tmp := wcf1.mantissa * wcf2.mantissa
    let (e, tmp) := if tmp < 2 ^ 63 then (e - 1, tmp <<< 1) else (e, tmp)
    setAssert e (tmp >>> 32) (wcf1.isPositive == wcf2.isPositive)

end operators

/-! ## Values and normal form -/

def signOf (isPositive : Bool) : ℚ := if isPositive then 1 else -1

/-- The number a float stands for. -/
def value (wcf : WarthogCustomFloat) : ℚ :=
  signOf wcf.isPositive * wcf.mantissa * 2 ^ (wcf.exponent - 32)

/-- One unit in the last mantissa place. -/
def ulp (wcf : WarthogCustomFloat) : ℚ := 2 ^ (wcf.exponent - 32)

/-- The first bit of the mantissa is set, unless all of it is zero. -/
def IsNormal (wcf : WarthogCustomFloat) : Prop :=
  wcf.mantissa = 0 ∨ 0x80000000 ≤ wcf.mantissa ∧ wcf.mantissa < 2 ^ 32

instance : DecidablePred IsNormal := fun _ => inferInstanceAs (Decidable (_ ∨ _))

/-- What is returned for a float whose exponent is checked. -/
def checked (wcf : WarthogCustomFloat) : Except FloatError WarthogCustomFloat :=
  if IsValidExponent wcf.exponent then .ok wcf else .error (.invalidExponent wcf.exponent)

/-- A float in normal form within `bound` of the exact number is returned, unless its exponent is
checked and not valid. -/
def Approximates (result : Except FloatError WarthogCustomFloat) (exact : ℚ)
    (bound : WarthogCustomFloat → ℚ) : Prop :=
  ∃ r : WarthogCustomFloat, IsNormal r ∧ |r.value - exact| < bound r ∧
    (result = .ok r ∨ result = checked r)

theorem two_zpow_eq_mul {e f : ℤ} (k : ℕ) (h : f = k + e) : (2 : ℚ) ^ f = 2 ^ k * 2 ^ e := by
  rw [h, zpow_add₀ two_ne_zero, zpow_natCast]

theorem ulp_pos (wcf : WarthogCustomFloat) : 0 < ulp wcf := zpow_pos two_pos _

theorem abs_signOf_mul (isPositive : Bool) (x : ℚ) : |signOf isPositive * x| = |x| := by
  cases isPositive <;> simp [signOf]

theorem signOf_not (isPositive : Bool) : signOf (!isPositive) = -signOf isPositive := by
  cases isPositive <;> simp [signOf]

theorem signOf_mul_abs {isPositive : Bool} {x : ℚ} (h : isPositive = true ↔ 0 ≤ x) :
    signOf isPositive * |x| = x := by
  cases isPositive with
  | true => rw [signOf, if_pos rfl, one_mul, abs_of_nonneg (h.mp rfl)]
  | false =>
      have hneg : x < 0 := not_le.mp fun hnonneg => Bool.false_ne_true (h.mpr hnonneg)
      rw [signOf, if_neg Bool.false_ne_true, abs_of_neg hneg, neg_one_mul, neg_neg]

theorem value_eq (wcf : WarthogCustomFloat) :
    value wcf = signOf wcf.isPositive * wcf.mantissa * ulp wcf := rfl

theorem value_of_mantissa_eq_zero {wcf : WarthogCustomFloat} (h : wcf.mantissa = 0) :
    value wcf = 0 := by
  rw [value, h, Nat.cast_zero, mul_zero, zero_mul]

theorem value_neg (wcf : WarthogCustomFloat) : value (neg wcf) = -value wcf := by
  rw [value, value, neg, signOf_not]
  ring

theorem setAssert_eq {mantissa : ℕ} (h : mantissa < 2 ^ 32) (exponent : ℤ) (isPositive : Bool) :
    setAssert exponent mantissa isPositive = checked ⟨exponent, mantissa, isPositive⟩ := by
  rw [setAssert, checked, if_pos h, ite_not]

section normalization

/-- The loop to the left shifts until the first bit is set. -/
theorem normalizeLeft_spec (exponent : ℤ) {mantissa : ℕ} (hpos : 0 < mantissa)
    (hlt : mantissa < 2 ^ 32) :
    ∃ k : ℕ, normalizeLeft exponent mantissa = (exponent - k, mantissa * 2 ^ k) ∧
      0x80000000 ≤ mantissa * 2 ^ k ∧ mantissa * 2 ^ k < 2 ^ 32 := by
  fun_induction normalizeLeft exponent mantissa with
  | case1 exponent mantissa hloop ih =>
      rw [Nat.shiftLeft_eq] at ih ⊢
      obtain ⟨k, heq, hbounds⟩ := ih (by omega) (by omega)
      refine ⟨k + 1, ?_, ?_⟩
      · rw [heq, Prod.mk.injEq]
        refine ⟨by push_cast; ring, by ring⟩
      · rwa [pow_succ', ← mul_assoc]
  | case2 exponent mantissa hend =>
      refine ⟨0, ?_, ?_, ?_⟩ <;> simp <;> omega

/-- The loop to the right shifts a carry away. -/
theorem normalizeRight_spec (exponent : ℤ) {mantissa : ℕ} (hle : 0x80000000 ≤ mantissa)
    (hlt : mantissa < 2 ^ 33) :
    normalizeRight exponent mantissa =
      if 2 ^ 32 ≤ mantissa then (exponent + 1, mantissa / 2) else (exponent, mantissa) := by
  rw [normalizeRight]
  split
  · rw [normalizeRight, Nat.shiftRight_eq_div_pow, pow_one, if_neg (by omega)]
  · rfl

/-- A number of at most 32 bits becomes the mantissa of a float of the same value. -/
theorem exists_shiftLeft (exponent : ℤ) {mantissa : ℕ} (hpos : 0 < mantissa)
    (hlt : mantissa < 2 ^ 32) (isPositive : Bool) :
    ∃ r : WarthogCustomFloat, shiftLeft exponent mantissa isPositive = checked r ∧
      r.isPositive = isPositive ∧ 0x80000000 ≤ r.mantissa ∧ r.mantissa < 2 ^ 32 ∧
      r.exponent ≤ exponent ∧ exponent - 31 ≤ r.exponent ∧
      value r = signOf isPositive * mantissa * 2 ^ (exponent - 32) := by
  obtain ⟨k, heq, hle, hlt'⟩ := normalizeLeft_spec exponent hpos hlt
  have hk : k ≤ 31 := by
    by_contra hge
    have hpow : 2 ^ 32 ≤ 2 ^ k := Nat.pow_le_pow_right two_pos (not_le.mp hge)
    exact absurd hlt' (not_lt.mpr (hpow.trans (Nat.le_mul_of_pos_left _ hpos)))
  refine ⟨⟨exponent - k, mantissa * 2 ^ k, isPositive⟩, ?_, rfl, hle, hlt', ?_, ?_, ?_⟩
  · rw [shiftLeft, heq, setAssert_eq hlt']
  · simp
  · simp only
    omega
  · have hscale : (2 : ℚ) ^ (exponent - 32) = 2 ^ k * 2 ^ (exponent - k - 32) :=
      two_zpow_eq_mul k (by omega)
    rw [value]
    push_cast
    rw [hscale]
    ring

end normalization

section sums

variable {a b : WarthogCustomFloat}

/-- The part of a mantissa that a shift drops, in units of the place it ends at. -/
def dropped (mantissa shift : ℕ) : ℚ := (mantissa % 2 ^ shift : ℕ) / 2 ^ shift

theorem dropped_nonneg (mantissa shift : ℕ) : 0 ≤ dropped mantissa shift := by
  rw [dropped]
  positivity

theorem dropped_lt_one (mantissa shift : ℕ) : dropped mantissa shift < 1 := by
  rw [dropped, div_lt_one (by positivity)]
  exact_mod_cast Nat.mod_lt mantissa (Nat.two_pow_pos shift)

theorem cast_eq_shifted (mantissa shift : ℕ) :
    (mantissa : ℚ) = ((mantissa >>> shift : ℕ) + dropped mantissa shift) * 2 ^ shift := by
  rw [dropped, add_mul, div_mul_cancel₀ _ (by positivity), Nat.shiftRight_eq_div_pow]
  exact_mod_cast (Nat.div_add_mod' mantissa (2 ^ shift)).symm

/-- The value of the float with the smaller exponent in units of the other's last place. -/
theorem value_eq_shifted {shift : ℕ} (h : a.exponent = b.exponent + shift) :
    value b = signOf b.isPositive *
      ((b.mantissa >>> shift : ℕ) + dropped b.mantissa shift) * ulp a := by
  have hscale : ulp a = 2 ^ shift * ulp b := two_zpow_eq_mul shift (by omega)
  rw [value_eq, hscale]
  calc signOf b.isPositive * b.mantissa * ulp b
      = signOf b.isPositive *
          (((b.mantissa >>> shift : ℕ) + dropped b.mantissa shift) * 2 ^ shift) * ulp b := by
        rw [← cast_eq_shifted]
    _ = _ := by ring

/-- The shift of an aligned sum whose exponents do not overflow. -/
theorem addAligned_eq {shift : ℕ} (h : a.exponent = b.exponent + shift) (hlt : shift < 64) :
    addAligned a b =
      if a.isPositive = b.isPositive then
        shiftRight a.exponent (a.mantissa + b.mantissa >>> shift) a.isPositive
      else if b.mantissa >>> shift = a.mantissa then .ok { a with mantissa := 0 }
      else if a.mantissa < b.mantissa >>> shift then
        shiftLeft b.exponent (b.mantissa >>> shift - a.mantissa) b.isPositive
      else shiftLeft a.exponent (a.mantissa - b.mantissa >>> shift) a.isPositive := by
  have hdiff : a.exponent - b.exponent = shift := by
    rw [h, add_sub_cancel_left]
  have hwrap : ((shift : ℤ)).bmod (2 ^ 32) = shift := by
    rw [Int.bmod_eq_of_le] <;> omega
  have hmask : ((shift : ℤ) % 64).toNat = shift := by omega
  rw [addAligned, hdiff, hwrap]
  simp only [hmask]
  rw [if_neg (by omega)]

/-- The first bit of the mantissa is set. -/
def IsNormalized (wcf : WarthogCustomFloat) : Prop :=
  0x80000000 ≤ wcf.mantissa ∧ wcf.mantissa < 2 ^ 32

instance : DecidablePred IsNormalized := fun _ => inferInstanceAs (Decidable (_ ∧ _))

theorem IsNormal.isNormalized (h : IsNormal a) (hne : a.mantissa ≠ 0) : IsNormalized a :=
  h.resolve_left hne

theorem IsNormalized.ne_zero (h : IsNormalized a) : a.mantissa ≠ 0 := by
  have hle := h.1
  omega

theorem abs_value (b : WarthogCustomFloat) : |value b| = b.mantissa * ulp b := by
  rw [value_eq, mul_assoc, abs_signOf_mul, abs_mul, Nat.abs_cast, abs_of_pos (ulp_pos b)]

theorem abs_value_lt (hb : IsNormalized b) : |value b| < 2 ^ b.exponent := by
  have hmantissa : (b.mantissa : ℚ) < 2 ^ 32 := by exact_mod_cast hb.2
  calc |value b| = b.mantissa * ulp b := abs_value b
    _ < 2 ^ 32 * ulp b := mul_lt_mul_of_pos_right hmantissa (ulp_pos b)
    _ = 2 ^ b.exponent := (two_zpow_eq_mul 32 (by omega)).symm

theorem abs_sub_signed (isPositive : Bool) (x y u : ℚ) (hu : 0 < u) :
    |signOf isPositive * x * u - signOf isPositive * y * u| = |x - y| * u := by
  have hfactor : signOf isPositive * x * u - signOf isPositive * y * u =
      signOf isPositive * ((x - y) * u) := by ring
  rw [hfactor, abs_signOf_mul, abs_mul, abs_of_pos hu]

/-- A sum of two floats in normal form, as it is returned. The bound is one unit in the last
place of the sum or of the operand with the larger exponent `e`. -/
structure IsSum (result : Except FloatError WarthogCustomFloat) (a b : WarthogCustomFloat) (e : ℤ)
    (r : WarthogCustomFloat) : Prop where
  isNormal : IsNormal r
  returned : result = .ok r ∨ result = checked r
  error_lt : |value r - (value a + value b)| < 2 ^ (max r.exponent e - 32)
  le_exponent : e - 31 ≤ r.exponent
  exponent_le : r.exponent ≤ e + 1
  same_sign : a.isPositive = b.isPositive →
    r.isPositive = a.isPositive ∧ e ≤ r.exponent ∧ IsNormalized r
  exact : a.exponent = b.exponent → a.isPositive ≠ b.isPositive → value r = value a + value b
  left_sign : b.exponent < a.exponent → r.isPositive = a.isPositive ∧ IsNormalized r
  right_sign : a.exponent < b.exponent → r.isPositive = b.isPositive ∧ IsNormalized r

/-- Far behind the last place nothing is added. -/
theorem isSum_of_far (ha : IsNormalized a) (hb : IsNormalized b)
    (hfar : b.exponent + 64 ≤ a.exponent) {result : Except FloatError WarthogCustomFloat}
    (hresult : result = .ok a) : IsSum result a b a.exponent a where
  isNormal := Or.inr ha
  returned := Or.inl hresult
  error_lt := by
    rw [max_self, sub_add_cancel_left, abs_neg]
    apply lt_of_lt_of_le (abs_value_lt hb)
    exact zpow_le_zpow_right₀ one_le_two (by omega)
  le_exponent := by omega
  exponent_le := by omega
  same_sign _ := ⟨rfl, le_rfl, ha⟩
  exact heq := by omega
  left_sign _ := ⟨rfl, ha⟩
  right_sign hlt := by omega

theorem IsNormalized.shifted_lt (hb : IsNormalized b) (shift : ℕ) :
    b.mantissa >>> shift < 2 ^ 32 := by
  rw [Nat.shiftRight_eq_div_pow]
  exact (Nat.div_le_self _ _).trans_lt hb.2

/-- A shift clears the first bit. -/
theorem IsNormalized.shifted_lt_of_pos (hb : IsNormalized b) {shift : ℕ} (hpos : 0 < shift) :
    b.mantissa >>> shift < 0x80000000 := by
  have hpow : 2 ^ 1 ≤ 2 ^ shift := Nat.pow_le_pow_right two_pos hpos
  rw [Nat.shiftRight_eq_div_pow]
  apply (Nat.div_le_div_left hpow two_pos).trans_lt
  have := hb.2
  omega

theorem value_add_of_same {shift : ℕ} (h : a.exponent = b.exponent + shift)
    (hsign : a.isPositive = b.isPositive) :
    value a + value b = signOf a.isPositive *
      ((a.mantissa + b.mantissa >>> shift : ℕ) + dropped b.mantissa shift) * ulp a := by
  rw [value_eq_shifted h, value_eq, hsign]
  push_cast
  ring

theorem value_add_of_opposite {shift : ℕ} (h : a.exponent = b.exponent + shift)
    (hsign : b.isPositive = !a.isPositive) :
    value a + value b = signOf a.isPositive *
      (a.mantissa - (b.mantissa >>> shift : ℕ) - dropped b.mantissa shift) * ulp a := by
  rw [value_eq_shifted h, value_eq, hsign, signOf_not]
  ring

/-- Mantissas of the same sign are added, and a carry shifted away. -/
theorem exists_isSum_of_same {shift : ℕ} (ha : IsNormalized a) (hb : IsNormalized b)
    (h : a.exponent = b.exponent + shift) (hlt : shift < 64)
    (hsign : a.isPositive = b.isPositive) :
    ∃ r, IsSum (addAligned a b) a b a.exponent r := by
  have hoperand := hb.shifted_lt shift
  have hsum := value_add_of_same h hsign
  have hnonneg := dropped_nonneg b.mantissa shift
  have hless := dropped_lt_one b.mantissa shift
  obtain ⟨hle, hlt'⟩ := ha
  rw [addAligned_eq h hlt, if_pos hsign, shiftRight]
  generalize b.mantissa >>> shift = operand at hoperand hsum ⊢
  rw [normalizeRight_spec _ (by omega) (by omega)]
  by_cases hcarry : 2 ^ 32 ≤ a.mantissa + operand
  · -- the carry takes the last bit with it
    rw [if_pos hcarry, setAssert_eq (by omega)]
    refine ⟨_, Or.inr ⟨by simp only; omega, by simp only; omega⟩, Or.inr rfl, ?_,
      by simp only; omega,
      le_rfl, fun _ => ⟨rfl, by simp, by simp only; omega, by simp only; omega⟩,
      fun _ hne => absurd hsign hne, fun _ => ⟨rfl, by simp only; omega, by simp only; omega⟩,
      fun hgt => absurd hgt (by omega)⟩
    have hulp : (2 : ℚ) ^ (a.exponent + 1 - 32) = 2 * ulp a := by
      rw [ulp, ← zpow_one_add₀ two_ne_zero]
      congr 1
      ring
    have hparity : ((a.mantissa + operand : ℕ) : ℚ) =
        2 * ((a.mantissa + operand) / 2 : ℕ) + ((a.mantissa + operand) % 2 : ℕ) := by
      exact_mod_cast (Nat.div_add_mod (a.mantissa + operand) 2).symm
    have hbit : (((a.mantissa + operand) % 2 : ℕ) : ℚ) ≤ 1 := by
      exact_mod_cast Nat.le_of_lt_succ (Nat.mod_lt _ two_pos)
    have hbit' : (0 : ℚ) ≤ ((a.mantissa + operand) % 2 : ℕ) := Nat.cast_nonneg _
    have hvalue : value ⟨a.exponent + 1, (a.mantissa + operand) / 2, a.isPositive⟩ =
        signOf a.isPositive * (2 * ((a.mantissa + operand) / 2 : ℕ)) * ulp a := by
      simp only [value, hulp]
      ring
    rw [max_eq_left (by simp), hvalue, hsum, hparity, abs_sub_signed _ _ _ _ (ulp_pos a), hulp]
    apply mul_lt_mul_of_pos_right _ (ulp_pos a)
    rw [abs_lt]
    constructor <;> linarith
  · rw [if_neg hcarry, setAssert_eq (by omega)]
    refine ⟨_, Or.inr ⟨by simp only; omega, by simp only; omega⟩, Or.inr rfl, ?_,
      by simp only; omega,
      by simp, fun _ => ⟨rfl, le_rfl, by simp only; omega, by simp only; omega⟩,
      fun _ hne => absurd hsign hne, fun _ => ⟨rfl, by simp only; omega, by simp only; omega⟩,
      fun hgt => absurd hgt (by omega)⟩
    rw [max_self, hsum, value]
    change |_ * ulp a - _| < ulp a
    rw [abs_sub_signed _ _ _ _ (ulp_pos a), sub_add_cancel_left, abs_neg, abs_of_nonneg hnonneg]
    exact mul_lt_of_lt_one_left (ulp_pos a) hless

/-- Mantissas of different signs are subtracted, and what is left is shifted to the left. -/
theorem exists_isSum_of_opposite {shift : ℕ} (ha : IsNormalized a) (hb : IsNormalized b)
    (h : a.exponent = b.exponent + shift) (hlt : shift < 64)
    (hsign : a.isPositive ≠ b.isPositive) :
    ∃ r, IsSum (addAligned a b) a b a.exponent r := by
  have hopposite : b.isPositive = !a.isPositive := by
    cases hpositive : a.isPositive <;> cases hpositive' : b.isPositive <;> simp_all
  have hoperand := @IsNormalized.shifted_lt_of_pos _ hb shift
  have hsum := value_add_of_opposite h hopposite
  have hnonneg := dropped_nonneg b.mantissa shift
  have hless := dropped_lt_one b.mantissa shift
  have hnone : shift = 0 → dropped b.mantissa shift = 0 := by
    rintro rfl
    simp [dropped, Nat.mod_one]
  have hb' := hb.shifted_lt shift
  obtain ⟨hle, hlt'⟩ := ha
  rw [addAligned_eq h hlt, if_neg hsign]
  generalize b.mantissa >>> shift = operand at hoperand hsum hb' ⊢
  generalize dropped b.mantissa shift = rest at hsum hnonneg hless hnone
  rcases lt_trichotomy operand a.mantissa with hsmaller | hequal | hlarger
  · rw [if_neg hsmaller.ne, if_neg hsmaller.not_gt]
    obtain ⟨r, hreturned, hpositive, hmantissa, hmantissa', hexponent, hexponent', hvalue⟩ :=
      exists_shiftLeft a.exponent (Nat.sub_pos_of_lt hsmaller) (by omega) a.isPositive
    refine ⟨r, Or.inr ⟨hmantissa, hmantissa'⟩, Or.inr hreturned, ?_, hexponent', by omega,
      fun hsame => absurd hsame hsign, ?_, fun _ => ⟨hpositive, hmantissa, hmantissa'⟩,
      fun hgt => absurd hgt (by omega)⟩
    · rw [max_eq_right hexponent, hvalue, hsum, Nat.cast_sub hsmaller.le]
      change |_ * ulp a - _| < ulp a
      rw [abs_sub_signed _ _ _ _ (ulp_pos a), sub_sub_cancel, abs_of_nonneg hnonneg]
      exact mul_lt_of_lt_one_left (ulp_pos a) hless
    · intro hequal _
      rw [hvalue, hsum, Nat.cast_sub hsmaller.le, hnone (by omega), sub_zero]
      rfl
  · -- equal mantissas cancel, which leaves no shift
    have hzero : shift = 0 := by
      by_contra hne
      have := hoperand (Nat.pos_of_ne_zero hne)
      omega
    rw [if_pos hequal]
    have hexact : value { a with mantissa := 0 } = value a + value b := by
      rw [hsum, hequal, hnone hzero, value_of_mantissa_eq_zero rfl]
      ring
    refine ⟨_, Or.inl rfl, Or.inl rfl, ?_, by simp only; omega, by simp only; omega,
      fun hsame => absurd hsame hsign, fun _ _ => hexact, fun hgt => absurd hgt (by omega),
      fun hgt => absurd hgt (by omega)⟩
    rw [hexact, sub_self, abs_zero]
    exact zpow_pos two_pos _
  · -- the sign changes only between equal exponents
    have hzero : shift = 0 := by
      by_contra hne
      have := hoperand (Nat.pos_of_ne_zero hne)
      omega
    have hexponents : b.exponent = a.exponent := by omega
    rw [if_neg hlarger.ne', if_pos hlarger]
    obtain ⟨r, hreturned, hpositive, hmantissa, hmantissa', hexponent, hexponent', hvalue⟩ :=
      exists_shiftLeft b.exponent (Nat.sub_pos_of_lt hlarger) (by omega) b.isPositive
    have hexact : value r = value a + value b := by
      rw [hvalue, hsum, hnone hzero, Nat.cast_sub hlarger.le, hopposite, signOf_not, hexponents,
        ulp]
      ring
    refine ⟨r, Or.inr ⟨hmantissa, hmantissa'⟩, Or.inr hreturned, ?_, by omega, by omega,
      fun hsame => absurd hsame hsign, fun _ _ => hexact, fun hgt => absurd hgt (by omega),
      fun hgt => absurd hgt (by omega)⟩
    rw [hexact, sub_self, abs_zero]
    exact zpow_pos two_pos _

theorem exists_isSum_addAligned (ha : IsNormalized a) (hb : IsNormalized b)
    (hle : b.exponent ≤ a.exponent) (hlt : a.exponent - b.exponent < 2 ^ 31) :
    ∃ r, IsSum (addAligned a b) a b a.exponent r := by
  obtain ⟨shift, hshift⟩ := Int.le.dest hle
  by_cases hfar : shift < 64
  · by_cases hsign : a.isPositive = b.isPositive
    · exact exists_isSum_of_same ha hb hshift.symm hfar hsign
    · exact exists_isSum_of_opposite ha hb hshift.symm hfar hsign
  · refine ⟨a, isSum_of_far ha hb (by omega) ?_⟩
    have hwrap : (a.exponent - b.exponent).bmod (2 ^ 32) = a.exponent - b.exponent := by
      rw [Int.bmod_eq_of_le] <;> omega
    rw [addAligned, hwrap]
    exact if_pos (by omega)

theorem IsSum.symm {result : Except FloatError WarthogCustomFloat} {e : ℤ}
    {r : WarthogCustomFloat} (h : IsSum result a b e r) : IsSum result b a e r where
  isNormal := h.isNormal
  returned := h.returned
  error_lt := by
    rw [add_comm (value b)]
    exact h.error_lt
  le_exponent := h.le_exponent
  exponent_le := h.exponent_le
  same_sign hsign := by
    rw [hsign]
    exact h.same_sign hsign.symm
  exact heq hne := by
    rw [add_comm (value b)]
    exact h.exact heq.symm hne.symm
  left_sign := h.right_sign
  right_sign := h.left_sign

theorem exists_isSum (ha : IsNormalized a) (hb : IsNormalized b)
    (hlt : |a.exponent - b.exponent| < 2 ^ 31) :
    ∃ r, IsSum (add a b) a b (max a.exponent b.exponent) r := by
  rw [abs_lt] at hlt
  rw [add, if_neg ha.ne_zero, if_neg hb.ne_zero]
  split
  · rename_i hswap
    rw [max_eq_right hswap.le]
    obtain ⟨r, hr⟩ := exists_isSum_addAligned hb ha hswap.le (by omega)
    exact ⟨r, hr.symm⟩
  · rename_i hswap
    rw [max_eq_left (not_lt.mp hswap)]
    exact exists_isSum_addAligned ha hb (not_lt.mp hswap) (by omega)

end sums

section products

variable {a b : WarthogCustomFloat}

/-- A product of two floats in normal form, as it is returned. -/
structure IsProduct (result : Except FloatError WarthogCustomFloat) (a b r : WarthogCustomFloat) :
    Prop where
  isNormalized : IsNormalized r
  returned : result = checked r
  isPositive_eq : r.isPositive = (a.isPositive == b.isPositive)
  error_lt : |value r - value a * value b| < ulp r
  abs_le : |value r| ≤ |value a * value b|
  le_exponent : a.exponent + b.exponent - 1 ≤ r.exponent
  exponent_le : r.exponent ≤ a.exponent + b.exponent

/-- The high half of a product of mantissas, and what it leaves out. -/
theorem isProduct_of_eq {e : ℤ} {tmp : ℕ} (hle : 2 ^ 63 ≤ tmp) (hlt : tmp < 2 ^ 64)
    (hexact : value a * value b =
      signOf (a.isPositive == b.isPositive) * tmp * 2 ^ (e - 64))
    (hlow : a.exponent + b.exponent - 1 ≤ e) (hhigh : e ≤ a.exponent + b.exponent) :
    IsProduct (setAssert e (tmp >>> 32) (a.isPositive == b.isPositive)) a b
      ⟨e, tmp >>> 32, a.isPositive == b.isPositive⟩ := by
  have hnormalized : IsNormalized ⟨e, tmp >>> 32, a.isPositive == b.isPositive⟩ := by
    change 0x80000000 ≤ tmp >>> 32 ∧ tmp >>> 32 < 2 ^ 32
    rw [Nat.shiftRight_eq_div_pow]
    omega
  have hscale : (2 : ℚ) ^ (e - 32) = 2 ^ 32 * 2 ^ (e - 64) := two_zpow_eq_mul 32 (by omega)
  have hproduct : value a * value b = signOf (a.isPositive == b.isPositive) *
      ((tmp >>> 32 : ℕ) + dropped tmp 32) * 2 ^ (e - 32) := by
    rw [hexact, hscale]
    nth_rewrite 1 [cast_eq_shifted tmp 32]
    ring
  have hunit : (0 : ℚ) < 2 ^ (e - 32) := zpow_pos two_pos _
  have hnonneg := dropped_nonneg tmp 32
  refine ⟨hnormalized, setAssert_eq hnormalized.2 _ _, rfl, ?_, ?_, hlow, hhigh⟩
  · rw [hproduct, value]
    change _ < (2 : ℚ) ^ (e - 32)
    rw [abs_sub_signed _ _ _ _ hunit, sub_add_cancel_left, abs_neg, abs_of_nonneg hnonneg]
    exact mul_lt_of_lt_one_left hunit (dropped_lt_one tmp 32)
  · rw [hproduct, value, mul_assoc, mul_assoc, abs_signOf_mul, abs_signOf_mul, abs_mul, abs_mul]
    apply mul_le_mul_of_nonneg_right _ (abs_nonneg _)
    rw [Nat.abs_cast, abs_of_nonneg (add_nonneg (Nat.cast_nonneg _) hnonneg)]
    exact le_add_of_nonneg_right hnonneg

theorem exists_isProduct (ha : IsNormalized a) (hb : IsNormalized b)
    (hlow : -2 ^ 31 ≤ a.exponent + b.exponent) (hhigh : a.exponent + b.exponent < 2 ^ 31) :
    ∃ r, IsProduct (mul a b) a b r := by
  have hwrap : (a.exponent + b.exponent).bmod (2 ^ 32) = a.exponent + b.exponent := by
    rw [Int.bmod_eq_of_le] <;> omega
  have htmp : 0x80000000 * 0x80000000 ≤ a.mantissa * b.mantissa := Nat.mul_le_mul ha.1 hb.1
  have htmp' : a.mantissa * b.mantissa < 2 ^ 64 := by
    calc a.mantissa * b.mantissa < 2 ^ 32 * 2 ^ 32 := Nat.mul_lt_mul'' ha.2 hb.2
      _ = 2 ^ 64 := by norm_num
  have hexact : value a * value b = signOf (a.isPositive == b.isPositive) *
      (a.mantissa * b.mantissa : ℕ) * 2 ^ (a.exponent + b.exponent - 64) := by
    have hscale : (2 : ℚ) ^ (a.exponent + b.exponent - 64) = ulp a * ulp b := by
      rw [ulp, ulp, ← zpow_add₀ two_ne_zero]
      congr 1
      ring
    have hsign : signOf (a.isPositive == b.isPositive) =
        signOf a.isPositive * signOf b.isPositive := by
      cases a.isPositive <;> cases b.isPositive <;> simp [signOf]
    rw [hscale, hsign, value_eq, value_eq]
    push_cast
    ring
  rw [mul, if_neg (not_or_intro ha.ne_zero hb.ne_zero), hwrap]
  by_cases hsmall : a.mantissa * b.mantissa < 2 ^ 63
  · simp only [if_pos hsmall]
    refine ⟨_, isProduct_of_eq (by rw [Nat.shiftLeft_eq]; omega) (by rw [Nat.shiftLeft_eq]; omega)
      ?_ le_rfl (by omega)⟩
    have hscale : (2 : ℚ) ^ (a.exponent + b.exponent - 64) =
        2 * 2 ^ (a.exponent + b.exponent - 1 - 64) := by
      rw [← zpow_one_add₀ two_ne_zero]
      congr 1
      ring
    rw [hexact, hscale, Nat.shiftLeft_eq]
    push_cast
    ring
  · simp only [if_neg hsmall]
    exact ⟨_, isProduct_of_eq (not_lt.mp hsmall) htmp' hexact (by omega) le_rfl⟩

end products

section construction

/-- Every `int` but the least has a float of its value. -/
theorem exists_ofInt {n : ℤ} (hlow : -2 ^ 31 < n) (hhigh : n < 2 ^ 31) :
    ∃ r, ofInt n = .ok r ∧ IsNormal r ∧ value r = n ∧
      (n ≠ 0 → IsNormalized r ∧ r.isPositive = decide (0 ≤ n)) := by
  by_cases hzero : n = 0
  · refine ⟨⟨0, 0, true⟩, by rw [ofInt, if_pos hzero], Or.inl rfl, ?_, fun h => absurd hzero h⟩
    rw [value_of_mantissa_eq_zero rfl, hzero, Int.cast_zero]
  · have hmagnitude :
        ((if n < 0 then (-n).bmod (2 ^ 32) else n) % 2 ^ 64).toNat = n.natAbs := by
      split
      · rw [Int.bmod_eq_of_le] <;> omega
      · omega
    obtain ⟨r, hreturned, hpositive, hmantissa, hmantissa', hexponent, hexponent', hvalue⟩ :=
      exists_shiftLeft 32 (Int.natAbs_pos.mpr hzero) (by omega) (decide (0 ≤ n))
    have hvalid : IsValidExponent r.exponent := by
      rw [IsValidExponent]
      omega
    refine ⟨r, ?_, Or.inr ⟨hmantissa, hmantissa'⟩, ?_,
      fun _ => ⟨⟨hmantissa, hmantissa'⟩, hpositive⟩⟩
    · rw [ofInt, if_neg hzero]
      simp only [hmagnitude]
      rw [hreturned, checked, if_pos hvalid]
    · rw [hvalue, sub_self, zpow_zero, mul_one, Nat.cast_natAbs, Int.cast_abs]
      apply signOf_mul_abs
      rw [decide_eq_true_iff, Int.cast_nonneg_iff]

theorem value_power (exponent : ℤ) (isPositive : Bool) :
    value ⟨exponent + 1, 0x80000000, isPositive⟩ = signOf isPositive * 2 ^ exponent := by
  have hscale : (2 : ℚ) ^ exponent = 2 ^ 31 * 2 ^ (exponent + 1 - 32) :=
    two_zpow_eq_mul 31 (by omega)
  rw [value, hscale]
  norm_num
  ring

theorem ofPower_eq {exponent : ℤ} (h : IsValidExponent exponent) (isPositive : Bool) :
    ofPower exponent isPositive = checked ⟨exponent + 1, 0x80000000, isPositive⟩ := by
  rw [ofPower, if_neg (not_not_intro h), setAssert_eq (by norm_num)]

/-- The number of a hash behind the point, followed by ones without end. -/
def fraction : List UInt8 → ℚ
  | [] => 1
  | byte :: hash => (byte.toNat + fraction hash) / 256

theorem fraction_bounds (hash : List UInt8) : 0 < fraction hash ∧ fraction hash ≤ 1 := by
  induction hash with
  | nil => simp [fraction]
  | cons byte hash ih =>
      have hbyte : (byte.toNat : ℚ) ≤ 255 := by exact_mod_cast Nat.le_of_lt_succ byte.toNat_lt
      have hnonneg : (0 : ℚ) ≤ byte.toNat := Nat.cast_nonneg _
      rw [fraction, div_le_one (by norm_num)]
      constructor
      · apply div_pos _ (by norm_num)
        linarith [ih.1]
      · linarith [ih.2]

/-- What is read of a hash, and what is left of it. -/
theorem readData_bounds (n tmpData : ℕ) (hash : List UInt8) :
    (readData n tmpData hash : ℚ) < (tmpData + fraction hash) * 256 ^ n ∧
      (tmpData + fraction hash) * 256 ^ n ≤ readData n tmpData hash + 1 := by
  induction n generalizing tmpData hash with
  | zero =>
      obtain ⟨hpos, hle⟩ := fraction_bounds hash
      rw [readData, pow_zero, mul_one]
      constructor <;> linarith
  | succ n ih =>
      have hbyte (x : ℕ) (hx : x < 2 ^ 8) :
          ((tmpData <<< 8 ||| x : ℕ) : ℚ) = tmpData * 256 + x := by
        rw [← Nat.shiftLeft_add_eq_or_of_lt hx, Nat.shiftLeft_eq]
        push_cast
        norm_num
      cases hash with
      | nil =>
          have h := ih (tmpData <<< 8 ||| 0xFF) []
          rw [hbyte _ (by norm_num)] at h
          have hscale : ((tmpData : ℚ) + fraction []) * 256 ^ (n + 1) =
              (tmpData * 256 + (0xFF : ℕ) + fraction []) * 256 ^ n := by
            simp only [fraction]
            push_cast
            ring
          rw [readData, hscale]
          exact h
      | cons byte hash =>
          have h := ih (tmpData <<< 8 ||| byte.toNat) hash
          rw [hbyte _ byte.toNat_lt] at h
          have hscale : ((tmpData : ℚ) + fraction (byte :: hash)) * 256 ^ (n + 1) =
              (tmpData * 256 + byte.toNat + fraction hash) * 256 ^ n := by
            simp only [fraction]
            ring
          rw [readData, hscale]
          exact h

theorem fraction_eq_dropWhile (hash : List UInt8) :
    fraction hash = fraction (hash.dropWhile (· = 0)) *
      2 ^ (-8 * ((hash.takeWhile (· = 0)).length : ℤ)) := by
  induction hash with
  | nil => simp
  | cons byte hash ih =>
      by_cases hbyte : byte = 0
      · have hscale : (2 : ℚ) ^ (-8 * (((hash.takeWhile (· = 0)).length + 1 : ℕ) : ℤ)) =
            2 ^ (-8 * ((hash.takeWhile (· = 0)).length : ℤ)) / 256 := by
          rw [div_eq_mul_inv]
          have hinv : (256 : ℚ)⁻¹ = 2 ^ (-8 : ℤ) := by norm_num
          rw [hinv, ← zpow_add₀ two_ne_zero]
          congr 1
          push_cast
          ring
        rw [List.dropWhile_cons_of_pos (by simpa using hbyte),
          List.takeWhile_cons_of_pos (by simpa using hbyte), List.length_cons, hscale, fraction, ih,
          hbyte]
        simp only [UInt8.toNat_zero, Nat.cast_zero]
        ring
      · rw [List.dropWhile_cons_of_neg (by simpa using hbyte),
          List.takeWhile_cons_of_neg (by simpa using hbyte)]
        simp

theorem le_fraction_dropWhile (hash : List UInt8) :
    1 / 256 ≤ fraction (hash.dropWhile (· = 0)) := by
  induction hash with
  | nil => norm_num [fraction]
  | cons byte hash ih =>
      by_cases hbyte : byte = 0
      · rwa [List.dropWhile_cons_of_pos (by simpa using hbyte)]
      · rw [List.dropWhile_cons_of_neg (by simpa using hbyte), fraction]
        have hpos : (1 : ℚ) ≤ byte.toNat := by
          exact_mod_cast Nat.one_le_iff_ne_zero.mpr fun h => hbyte (UInt8.toNat_inj.mp h)
        apply div_le_div_of_nonneg_right _ (by norm_num)
        linarith [(fraction_bounds hash).1]

/-- A hash becomes a positive float, below the number of the hash by at most one unit in the last
place of the four bytes that are read. -/
theorem exists_ofHash (hash : List UInt8) :
    ∃ r, ofHash hash = checked r ∧ IsNormalized r ∧ r.isPositive = true ∧
      r.exponent ≤ -8 * ((hash.takeWhile (· = 0)).length : ℤ) ∧
      -8 * ((hash.takeWhile (· = 0)).length : ℤ) - 31 ≤ r.exponent ∧
      value r < fraction hash ∧
      fraction hash ≤ value r + 2 ^ (-8 * ((hash.takeWhile (· = 0)).length : ℤ) - 32) := by
  obtain ⟨hbelow, habove⟩ := readData_bounds 4 0 (hash.dropWhile (· = 0))
  have hle := (fraction_bounds (hash.dropWhile (· = 0))).2
  have hge := le_fraction_dropWhile hash
  have hfraction := fraction_eq_dropWhile hash
  rw [Nat.cast_zero, zero_add] at hbelow habove
  rw [ofHash]
  generalize fraction (hash.dropWhile (· = 0)) = front at hbelow habove hle hge hfraction
  generalize readData 4 0 (hash.dropWhile (· = 0)) = tmpData at hbelow habove ⊢
  generalize -8 * ((hash.takeWhile (· = 0)).length : ℤ) = exponent at hfraction ⊢
  have hpos : 0 < tmpData := by
    have hcast : (0 : ℚ) < tmpData := by
      norm_num at habove
      linarith
    exact_mod_cast hcast
  have hlt : tmpData < 2 ^ 32 := by
    have hcast : (tmpData : ℚ) < 2 ^ 32 := by
      calc (tmpData : ℚ) < front * 256 ^ 4 := hbelow
        _ ≤ 1 * 256 ^ 4 := mul_le_mul_of_nonneg_right hle (by positivity)
        _ = 2 ^ 32 := by norm_num
    exact_mod_cast hcast
  obtain ⟨r, hreturned, hpositive, hmantissa, hmantissa', hexponent, hexponent', hvalue⟩ :=
    exists_shiftLeft exponent hpos hlt true
  have hunit : (0 : ℚ) < 2 ^ (exponent - 32) := zpow_pos two_pos _
  have hscale : (2 : ℚ) ^ exponent = 256 ^ 4 * 2 ^ (exponent - 32) := by
    have hpow : (256 : ℚ) ^ 4 = 2 ^ 32 := by norm_num
    rw [hpow]
    exact two_zpow_eq_mul 32 (by omega)
  have hexact : fraction hash = front * 256 ^ 4 * 2 ^ (exponent - 32) := by
    rw [hfraction, hscale, mul_assoc]
  have hrounded : value r = tmpData * 2 ^ (exponent - 32) := by
    rw [hvalue, signOf, if_pos rfl, one_mul]
  refine ⟨r, hreturned, ⟨hmantissa, hmantissa'⟩, hpositive, hexponent, hexponent', ?_, ?_⟩
  · rw [hexact, hrounded]
    exact mul_lt_mul_of_pos_right hbelow hunit
  · rw [hexact, hrounded]
    calc front * 256 ^ 4 * 2 ^ (exponent - 32)
        ≤ (tmpData + 1) * 2 ^ (exponent - 32) := mul_le_mul_of_nonneg_right habove hunit.le
      _ = tmpData * 2 ^ (exponent - 32) + 2 ^ (exponent - 32) := by ring

/-- The significand is from a half to one, and becomes the mantissa when it is rounded up. -/
theorem frexp_spec {d : ℚ} (hd : d ≠ 0) :
    d = (frexp d).1 * 2 ^ (frexp d).2 ∧ 1 / 2 ≤ |(frexp d).1| ∧ |(frexp d).1| < 1 := by
  have habs : 0 < |d| := abs_pos.mpr hd
  have hpow : (0 : ℚ) < 2 ^ (Int.log 2 |d| + 1) := zpow_pos two_pos _
  have hlow : (2 : ℚ) ^ Int.log 2 |d| ≤ |d| := by
    exact_mod_cast Int.zpow_log_le_self one_lt_two habs
  have hhigh : |d| < (2 : ℚ) ^ (Int.log 2 |d| + 1) := by
    exact_mod_cast Int.lt_zpow_succ_log_self one_lt_two |d|
  rw [frexp]
  refine ⟨(div_mul_cancel₀ d hpow.ne').symm, ?_, ?_⟩
  · rw [abs_div, abs_of_pos hpow, le_div_iff₀ hpow, zpow_add_one₀ two_ne_zero]
    linarith
  · rwa [abs_div, abs_of_pos hpow, div_lt_one hpow]

/-- A double whose mantissa is not rounded up to the next power of two has a float. -/
theorem approximates_ofDouble {d : ℚ} (hmantissa : ⌈|(frexp d).1| * 2 ^ 32⌉₊ < 2 ^ 32) :
    Approximates (ofDouble (.finite d)) d ulp := by
  by_cases hd : d = 0
  · refine ⟨⟨0, 0, true⟩, Or.inl rfl, ?_, Or.inl (by rw [ofDouble, if_pos hd])⟩
    rw [value_of_mantissa_eq_zero rfl, hd, sub_zero, abs_zero]
    exact ulp_pos _
  · obtain ⟨hsplit, hlow, hhigh⟩ := frexp_spec hd
    have hceil := Nat.ceil_lt_add_one (mul_nonneg (abs_nonneg (frexp d).1)
      (by positivity : (0 : ℚ) ≤ 2 ^ 32))
    have hceil' := Nat.le_ceil (|(frexp d).1| * 2 ^ 32)
    have hresult : ofDouble (.finite d) = if ⌈|(frexp d).1| * 2 ^ 32⌉₊ < 2 ^ 32 ∧
        ⌈|(frexp d).1| * 2 ^ 32⌉₊ ≠ 0 then
          .ok ⟨(frexp d).2, ⌈|(frexp d).1| * 2 ^ 32⌉₊, decide (0 ≤ (frexp d).1)⟩
        else .error (.invalidMantissa ⌈|(frexp d).1| * 2 ^ 32⌉₊) := by
      rw [ofDouble, if_neg hd]
    rw [hresult]
    generalize (frexp d).1 = significand at hsplit hlow hhigh hceil hceil' hmantissa ⊢
    generalize (frexp d).2 = exponent at hsplit ⊢
    generalize ⌈|significand| * 2 ^ 32⌉₊ = m at hceil hceil' hmantissa ⊢
    have hm : 0x80000000 ≤ m := by
      have hcast : ((0x80000000 : ℕ) : ℚ) ≤ m := by
        push_cast
        linarith
      exact_mod_cast hcast
    have hunit : (0 : ℚ) < 2 ^ (exponent - 32) := zpow_pos two_pos _
    have hsign : significand = signOf (decide (0 ≤ significand)) * |significand| :=
      (signOf_mul_abs decide_eq_true_iff).symm
    have hexact : d = signOf (decide (0 ≤ significand)) * (|significand| * 2 ^ 32) *
        2 ^ (exponent - 32) := by
      have hscale : (2 : ℚ) ^ exponent = 2 ^ 32 * 2 ^ (exponent - 32) :=
        two_zpow_eq_mul 32 (by omega)
      rw [hsplit, hscale]
      nth_rewrite 1 [hsign]
      ring
    refine ⟨⟨exponent, m, decide (0 ≤ significand)⟩, Or.inr ⟨hm, hmantissa⟩, ?_,
      Or.inl (if_pos ⟨hmantissa, by omega⟩)⟩
    rw [value, ulp]
    simp only
    rw [hexact, abs_sub_signed _ _ _ _ hunit, abs_of_nonneg (by linarith)]
    apply mul_lt_of_lt_one_left hunit
    linarith

end construction

section approximation

variable {a b : WarthogCustomFloat}

theorem IsNormal.neg (h : IsNormal a) : IsNormal (neg a) := h

/-- Operands whose signs or exponents are equal lose less than one unit in the last place of the
sum. -/
theorem IsSum.error_lt_ulp {result : Except FloatError WarthogCustomFloat} {e : ℤ}
    {r : WarthogCustomFloat} (h : IsSum result a b e r)
    (heq : a.isPositive = b.isPositive ∨ a.exponent = b.exponent) :
    |value r - (value a + value b)| < ulp r := by
  by_cases hsign : a.isPositive = b.isPositive
  · have herror := h.error_lt
    rwa [max_eq_left (h.same_sign hsign).2.1] at herror
  · rw [h.exact (heq.resolve_left hsign) hsign, sub_self, abs_zero]
    exact ulp_pos r

/-- A sum, also with a zero. -/
theorem exists_add (ha : IsNormal a) (hb : IsNormal b)
    (hlt : |a.exponent - b.exponent| < 2 ^ 31) :
    ∃ r, IsNormal r ∧ (add a b = .ok r ∨ add a b = checked r) ∧
      |value r - (value a + value b)| < 2 ^ (max r.exponent (max a.exponent b.exponent) - 32) ∧
      (a.isPositive = b.isPositive ∨ a.exponent = b.exponent →
        |value r - (value a + value b)| < ulp r) := by
  by_cases hazero : a.mantissa = 0
  · have hexact : value b - (value a + value b) = 0 := by
      rw [value_of_mantissa_eq_zero hazero]
      ring
    refine ⟨b, hb, Or.inl (by rw [add, if_pos hazero]), ?_, fun _ => ?_⟩
    · rw [hexact, abs_zero]
      exact zpow_pos two_pos _
    · rw [hexact, abs_zero]
      exact ulp_pos b
  by_cases hbzero : b.mantissa = 0
  · have hexact : value a - (value a + value b) = 0 := by
      rw [value_of_mantissa_eq_zero hbzero]
      ring
    refine ⟨a, ha, Or.inl (by rw [add, if_neg hazero, if_pos hbzero]), ?_, fun _ => ?_⟩
    · rw [hexact, abs_zero]
      exact zpow_pos two_pos _
    · rw [hexact, abs_zero]
      exact ulp_pos a
  obtain ⟨r, hr⟩ := exists_isSum (ha.isNormalized hazero) (hb.isNormalized hbzero) hlt
  exact ⟨r, hr.isNormal, hr.returned, hr.error_lt, hr.error_lt_ulp⟩

theorem approximates_mul (ha : IsNormal a) (hb : IsNormal b)
    (hlow : -2 ^ 31 ≤ a.exponent + b.exponent) (hhigh : a.exponent + b.exponent < 2 ^ 31) :
    Approximates (mul a b) (value a * value b) ulp := by
  by_cases hzero : a.mantissa = 0 ∨ b.mantissa = 0
  · have hexact : value a * value b = 0 := by
      obtain hzero | hzero := hzero
      · rw [value_of_mantissa_eq_zero hzero, zero_mul]
      · rw [value_of_mantissa_eq_zero hzero, mul_zero]
    refine ⟨{ a with mantissa := 0 }, Or.inl rfl, ?_, Or.inl (by rw [mul, if_pos hzero])⟩
    rw [hexact, value_of_mantissa_eq_zero rfl, sub_zero, abs_zero]
    exact ulp_pos _
  · rw [not_or] at hzero
    obtain ⟨r, hr⟩ :=
      exists_isProduct (ha.isNormalized hzero.1) (hb.isNormalized hzero.2) hlow hhigh
    exact ⟨r, Or.inr hr.isNormalized, hr.error_lt, Or.inr hr.returned⟩

end approximation

/-- What the operators and constructors of normal floats return, and how far it is from the exact
number. -/
theorem approximates :
    (∀ a b, IsNormal a → IsNormal b → |a.exponent - b.exponent| < 2 ^ 31 →
      Approximates (add a b) (value a + value b)
        (fun r => 2 ^ (max r.exponent (max a.exponent b.exponent) - 32)) ∧
      Approximates (sub a b) (value a - value b)
        (fun r => 2 ^ (max r.exponent (max a.exponent b.exponent) - 32)) ∧
      (a.isPositive = b.isPositive ∨ a.exponent = b.exponent →
        Approximates (add a b) (value a + value b) ulp) ∧
      (a.isPositive ≠ b.isPositive ∨ a.exponent = b.exponent →
        Approximates (sub a b) (value a - value b) ulp)) ∧
    (∀ a b, IsNormal a → IsNormal b → -2 ^ 31 ≤ a.exponent + b.exponent →
      a.exponent + b.exponent < 2 ^ 31 → Approximates (mul a b) (value a * value b) ulp) ∧
    (∀ n : ℤ, -2 ^ 31 < n → n < 2 ^ 31 →
      ∃ r, ofInt n = .ok r ∧ IsNormal r ∧ value r = n) ∧
    (∀ exponent isPositive, IsValidExponent exponent →
      Approximates (ofPower exponent isPositive) (signOf isPositive * 2 ^ exponent) ulp) ∧
    (∀ d : ℚ, ⌈|(frexp d).1| * 2 ^ 32⌉₊ < 2 ^ 32 →
      Approximates (ofDouble (.finite d)) d ulp) ∧
    ∀ hash, ∃ r, ofHash hash = checked r ∧ IsNormal r ∧ value r < fraction hash ∧
      fraction hash ≤ value r + 2 ^ (-8 * ((hash.takeWhile (· = 0)).length : ℤ) - 32) := by
  refine ⟨?_, ?_, ?_, ?_, ?_, ?_⟩
  · intro a b ha hb hlt
    obtain ⟨r, hr, hreturned, herror, herror'⟩ := exists_add ha hb hlt
    obtain ⟨d, hd, hreturned', hdiff, hdiff'⟩ := exists_add ha hb.neg hlt
    rw [value_neg, ← sub_eq_add_neg] at hdiff hdiff'
    refine ⟨⟨r, hr, herror, hreturned⟩, ⟨d, hd, hdiff, hreturned'⟩,
      fun heq => ⟨r, hr, herror' heq, hreturned⟩, fun heq => ⟨d, hd, hdiff' ?_, hreturned'⟩⟩
    apply heq.imp_left
    intro hne
    rw [neg]
    cases hsign : a.isPositive <;> cases hsign' : b.isPositive <;> simp_all
  · intro a b ha hb hlow hhigh
    exact approximates_mul ha hb hlow hhigh
  · intro n hlow hhigh
    obtain ⟨r, hreturned, hr, hvalue, -⟩ := exists_ofInt hlow hhigh
    exact ⟨r, hreturned, hr, hvalue⟩
  · intro exponent isPositive hvalid
    refine ⟨_, Or.inr ⟨le_rfl, by norm_num⟩, ?_, Or.inr (ofPower_eq hvalid isPositive)⟩
    rw [value_power, sub_self, abs_zero]
    exact ulp_pos _
  · intro d hmantissa
    exact approximates_ofDouble hmantissa
  · intro hash
    obtain ⟨r, hreturned, hr, -, -, -, hbelow, habove⟩ := exists_ofHash hash
    exact ⟨r, hreturned, Or.inr hr, hbelow, habove⟩

/-- The difference of one and the float before it is twice as large as it should be. -/
theorem not_approximates_sub : ¬ ∀ a b, IsNormal a → IsNormal b →
    Approximates (sub a b) (value a - value b) ulp := by
  intro h
  obtain ⟨r, -, herror, hreturned⟩ := h ⟨1, 0x80000000, true⟩ ⟨0, 0xFFFFFFFF, true⟩
    (by decide) (by decide)
  have hsub : sub ⟨1, 0x80000000, true⟩ ⟨0, 0xFFFFFFFF, true⟩ = .ok ⟨-30, 0x80000000, true⟩ := by
    decide +kernel
  have heq : r = ⟨-30, 0x80000000, true⟩ := by
    rw [hsub] at hreturned
    obtain hok | hchecked := hreturned
    · exact (Except.ok.inj hok).symm
    · rw [checked] at hchecked
      split at hchecked
      · exact (Except.ok.inj hchecked).symm
      · cases hchecked
  rw [heq] at herror
  exact absurd herror (by norm_num [value, ulp, signOf])

end WarthogCustomFloat

end Miningcore.Warthog
