import Miningcore.Foundation.LineSplitting
import Mathlib.Algebra.Order.Field.Rat
import Mathlib.Tactic.FieldSimp
import Mathlib.Tactic.Ring

/-!
# Decimal texts of numbers

Integers and decimal fractions as they are written in base ten. A fraction keeps the number of
its decimals; its text determines its value.
-/

namespace Foundation

/-! ### Integers -/

def integerText : ℤ → List Char
  | .ofNat n => Nat.toDigits 10 n
  | .negSucc n => '-' :: Nat.toDigits 10 (n + 1)

theorem isDigit_of_mem_decimal {n : ℕ} {c : Char} (h : c ∈ Nat.toDigits 10 n) : c.isDigit :=
  Nat.isDigit_of_mem_toDigits (by decide) (by decide) h

theorem mem_integerText {i : ℤ} {c : Char} (h : c ∈ integerText i) : c.isDigit ∨ c = '-' := by
  cases i with
  | ofNat n => exact Or.inl (isDigit_of_mem_decimal h)
  | negSucc n =>
      obtain rfl | hdigit := List.mem_cons.mp h
      · exact Or.inr rfl
      · exact Or.inl (isDigit_of_mem_decimal hdigit)

theorem integerText_ne_nil (i : ℤ) : integerText i ≠ [] := by
  cases i with
  | ofNat n => exact Nat.toDigits_ne_nil
  | negSucc n => exact List.cons_ne_nil _ _

theorem toDigits_injective : Function.Injective (Nat.toDigits 10) := by
  intro m n h
  calc
    m = Nat.ofDigitChars 10 (Nat.toDigits 10 m) 0 := Nat.ofDigitChars_ten_toDigits.symm
    _ = Nat.ofDigitChars 10 (Nat.toDigits 10 n) 0 := by rw [h]
    _ = n := Nat.ofDigitChars_ten_toDigits

theorem ofDigitChars_lt {digits : List Char} (h : ∀ c ∈ digits, c.isDigit) :
    Nat.ofDigitChars 10 digits 0 < 10 ^ digits.length := by
  induction digits with
  | nil => decide
  | cons c digits ih =>
      have hdigit : c.toNat ≤ 57 := by
        have hc := h c List.mem_cons_self
        rw [Char.isDigit, Bool.and_eq_true, decide_eq_true_iff, decide_eq_true_iff] at hc
        exact hc.2
      have hrest := ih fun c' hc' => h c' (List.mem_cons_of_mem c hc')
      rw [Nat.ofDigitChars_cons, Nat.ofDigitChars_eq_ofDigitChars_zero, List.length_cons, pow_succ,
        Nat.mul_zero, Nat.zero_add]
      have hle : 10 ^ digits.length * (c.toNat - '0'.toNat) ≤ 10 ^ digits.length * 9 :=
        Nat.mul_le_mul_left _ (by change c.toNat - 48 ≤ 9; omega)
      omega

/-- No digits begin with a sign. -/
theorem sign_cons_ne {digits : List Char} (h : ∀ c ∈ digits, c.isDigit) (rest : List Char) :
    digits ≠ '-' :: rest := by
  rintro rfl
  exact absurd (h '-' List.mem_cons_self) (by decide)

theorem integerText_injective : Function.Injective integerText := by
  intro i j h
  match i, j with
  | .ofNat m, .ofNat n => exact congrArg Int.ofNat (toDigits_injective h)
  | .negSucc m, .negSucc n =>
      exact congrArg Int.negSucc (Nat.succ.inj (toDigits_injective (List.cons.inj h).2))
  | .ofNat m, .negSucc n => exact absurd h (sign_cons_ne (fun _ => isDigit_of_mem_decimal) _)
  | .negSucc m, .ofNat n => exact absurd h.symm (sign_cons_ne (fun _ => isDigit_of_mem_decimal) _)

/-! ### Decimal fractions -/

/-- A number with a fixed number of decimals. -/
structure Decimal where
  mantissa : ℤ
  scale : ℕ
deriving DecidableEq

namespace Decimal

variable (d : Decimal)

def value : ℚ := d.mantissa / 10 ^ d.scale

/-- The digits of the mantissa, with a digit before its decimals. -/
def digits : List Char :=
  List.replicate (d.scale + 1 - (Nat.toDigits 10 d.mantissa.natAbs).length) '0' ++
    Nat.toDigits 10 d.mantissa.natAbs

def sign : List Char := if d.mantissa < 0 then ['-'] else []

def whole : List Char := d.digits.take (d.digits.length - d.scale)

/-- A number without decimals is written with one. -/
def fraction : List Char :=
  if d.scale = 0 then ['0'] else d.digits.drop (d.digits.length - d.scale)

def text : List Char := d.sign ++ d.whole ++ '.' :: d.fraction

variable {d}

theorem isDigit_digits {c : Char} (h : c ∈ d.digits) : c.isDigit := by
  obtain hzero | hdigit := List.mem_append.mp h
  · rw [List.eq_of_mem_replicate hzero]
    rfl
  · exact isDigit_of_mem_decimal hdigit

theorem isDigit_whole {c : Char} (h : c ∈ d.whole) : c.isDigit :=
  isDigit_digits (List.mem_of_mem_take h)

theorem isDigit_fraction {c : Char} (h : c ∈ d.fraction) : c.isDigit := by
  unfold fraction at h
  split at h
  · rw [List.mem_singleton.mp h]
    rfl
  · exact isDigit_digits (List.mem_of_mem_drop h)

theorem sign_cases (d : Decimal) : d.sign = [] ∨ d.sign = ['-'] := by
  unfold sign
  split
  · exact Or.inr rfl
  · exact Or.inl rfl

theorem mem_sign {c : Char} (h : c ∈ d.sign) : c = '-' := by
  obtain hsign | hsign := sign_cases d <;> rw [hsign] at h
  · cases h
  · exact List.mem_singleton.mp h

theorem mem_text {c : Char} (h : c ∈ d.text) : c.isDigit ∨ c = '-' ∨ c = '.' := by
  obtain hfront | hback := List.mem_append.mp h
  · obtain hsign | hwhole := List.mem_append.mp hfront
    · exact Or.inr (Or.inl (mem_sign hsign))
    · exact Or.inl (isDigit_whole hwhole)
  · obtain rfl | hfraction := List.mem_cons.mp hback
    · exact Or.inr (Or.inr rfl)
    · exact Or.inl (isDigit_fraction hfraction)

theorem text_ne_nil (d : Decimal) : d.text ≠ [] :=
  List.append_ne_nil_of_right_ne_nil _ (List.cons_ne_nil _ _)

theorem point_notMem (d : Decimal) : '.' ∉ d.sign ++ d.whole := by
  intro h
  obtain hsign | hwhole := List.mem_append.mp h
  · exact absurd (mem_sign hsign) (by decide)
  · exact absurd (isDigit_whole hwhole) (by decide)

/-- The parts of a text can be read off it. -/
theorem parts_of_text_eq {e : Decimal} (h : d.text = e.text) :
    d.sign = e.sign ∧ d.whole = e.whole ∧ d.fraction = e.fraction := by
  have hcut : takeLine '.' d.text = takeLine '.' e.text := by rw [h]
  rw [text, text, takeLine_append_cons (point_notMem d), takeLine_append_cons (point_notMem e),
    Option.some_inj, Prod.mk.injEq] at hcut
  obtain ⟨hfront, hfraction⟩ := hcut
  have hwhole : ∀ c ∈ d.whole, c.isDigit := fun _ => isDigit_whole
  have hwhole' : ∀ c ∈ e.whole, c.isDigit := fun _ => isDigit_whole
  obtain hd | hd := sign_cases d <;> obtain he | he := sign_cases e <;>
    rw [hd, he] at hfront ⊢
  · exact ⟨rfl, hfront, hfraction⟩
  · exact absurd hfront (sign_cons_ne hwhole _)
  · exact absurd hfront.symm (sign_cons_ne hwhole' _)
  · exact ⟨rfl, (List.cons.inj hfront).2, hfraction⟩

theorem scale_le_length_digits (d : Decimal) : d.scale ≤ d.digits.length := by
  rw [digits, List.length_append, List.length_replicate]
  omega

theorem ofDigitChars_digits (d : Decimal) :
    Nat.ofDigitChars 10 d.digits 0 = d.mantissa.natAbs := by
  rw [digits, Nat.ofDigitChars_append, Nat.ofDigitChars_replicate_zero, Nat.mul_zero,
    Nat.ofDigitChars_ten_toDigits]

theorem length_fraction (h : d.scale ≠ 0) : d.fraction.length = d.scale := by
  have := scale_le_length_digits d
  rw [fraction, if_neg h, List.length_drop]
  omega

theorem whole_append_fraction (h : d.scale ≠ 0) : d.whole ++ d.fraction = d.digits := by
  rw [fraction, if_neg h, whole, List.take_append_drop]

/-- The value from the written digits. -/
theorem natAbs_mantissa_div (d : Decimal) :
    (d.mantissa.natAbs : ℚ) / 10 ^ d.scale =
      Nat.ofDigitChars 10 (d.whole ++ d.fraction) 0 / 10 ^ d.fraction.length := by
  by_cases hscale : d.scale = 0
  · have hwhole : d.whole = d.digits := by
      rw [whole, hscale, Nat.sub_zero, List.take_length]
    rw [fraction, if_pos hscale, hwhole, Nat.ofDigitChars_append, ofDigitChars_digits, hscale]
    simp [Nat.ofDigitChars_cons]
  · rw [length_fraction hscale, whole_append_fraction hscale, ofDigitChars_digits]

theorem value_eq (d : Decimal) :
    d.value = (if d.sign = [] then 1 else -1) *
      (Nat.ofDigitChars 10 (d.whole ++ d.fraction) 0 / 10 ^ d.fraction.length) := by
  rw [← natAbs_mantissa_div, value, sign]
  split
  · rename_i hneg
    have habs : ((d.mantissa.natAbs : ℤ) : ℚ) = -d.mantissa := by
      rw [Int.ofNat_natAbs_of_nonpos hneg.le, Int.cast_neg]
    rw [if_neg (List.cons_ne_nil _ _), ← Int.cast_natCast, habs]
    ring
  · rename_i hpos
    have habs : ((d.mantissa.natAbs : ℤ) : ℚ) = d.mantissa := by
      rw [Int.natAbs_of_nonneg (not_lt.mp hpos)]
    rw [if_pos rfl, ← Int.cast_natCast, habs, one_mul]

/-- The decimals are the remainder of the mantissa. -/
theorem ofDigitChars_fraction (h : d.scale ≠ 0) :
    Nat.ofDigitChars 10 d.fraction 0 = d.mantissa.natAbs % 10 ^ d.scale := by
  have hlt := ofDigitChars_lt fun c (hc : c ∈ d.fraction) => isDigit_fraction hc
  have hdigits := ofDigitChars_digits d
  rw [← whole_append_fraction h, Nat.ofDigitChars_append, Nat.ofDigitChars_eq_ofDigitChars_zero,
    length_fraction h] at hdigits
  rw [length_fraction h] at hlt
  rw [← hdigits, Nat.mul_add_mod, Nat.mod_eq_of_lt hlt]

/-- What is written alike is the same number. -/
theorem value_eq_of_text_eq {e : Decimal} (h : d.text = e.text) : d.value = e.value := by
  obtain ⟨hsign, hwhole, hfraction⟩ := parts_of_text_eq h
  rw [value_eq, value_eq, hsign, hwhole, hfraction]

end Decimal

end Foundation
