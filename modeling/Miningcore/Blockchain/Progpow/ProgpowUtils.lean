import Mathlib.Algebra.Order.Floor.Semifield
import Mathlib.Data.Nat.Size
import Miningcore.Foundation.HexDigits
import Miningcore.Foundation.PrintedDoubles

/-!
# Targets of Progpow miners

A target is computed from the printed text of a reciprocal. The whole part is taken from
the number and the fraction from the digits behind the point. A text with an exponent has
other digits behind its point, or none.

## Implementation notes

None is an exception. An infinite reciprocal has no whole part.
-/

namespace Miningcore.Progpow

open Foundation

def firoDiff1B : ℕ := 0xffff * 2 ^ 208

def ravencoinDiff1B : ℕ := 0xff * 2 ^ 216

/-- `BigInteger.Parse` of a text without white space and sign. -/
def parseInteger (s : List Char) : Option ℕ :=
  if s ≠ [] ∧ s.all Char.isDigit then some (Nat.ofDigitChars 10 s 0) else none

/-- The format `x64`, which leaves the highest bit of the first digit to the sign. -/
def formatHex (n : ℕ) : List Char := hexText (max 64 (Nat.size n / 4 + 1)) n

/-- The target of the digits behind a point, without as many of its own. -/
def decimalTarget (diff1B : ℕ) (stringDiff : List Char) : Option ℕ := do
  let decimalOffset := stringDiff.idxOf '.'
  let precision := stringDiff.length - 1 - decimalOffset
  let decimalDiff ← parseInteger (stringDiff.drop (decimalOffset + 1))
  let s := Nat.toDigits 10 (diff1B * decimalDiff)
  if s.length < precision then none else parseInteger (s.take (s.length - precision))

/-- What `FiroEncodeTarget` and `RavencoinEncodeTarget` have in common. An infinite reciprocal is
no whole number. -/
def encodeTarget (diff1B : ℕ) (format : DoubleFormat) (difficulty : ℚ) : Option (List Char) :=
  let difficulty := format.round difficulty⁻¹
  if difficulty ≤ format.maxValue then
    let newTarget := diff1B * ⌊difficulty⌋.toNat
    let stringDiff := (format.shortest difficulty).text format.leastExponent
    if '.' ∈ stringDiff then
      (decimalTarget diff1B stringDiff).map fun decimalTarget =>
        formatHex (newTarget + decimalTarget)
    else some (formatHex newTarget)
  else none

def firoEncodeTarget : DoubleFormat → ℚ → Option (List Char) := encodeTarget firoDiff1B

def ravencoinEncodeTarget : DoubleFormat → ℚ → Option (List Char) := encodeTarget ravencoinDiff1B

section targets

variable {diff1B : ℕ} {format : DoubleFormat} {difficulty : ℚ}

/-! ## Texts in digits -/

theorem parseInteger_of_isDigit {s : List Char} (hne : s ≠ []) (h : ∀ c ∈ s, c.isDigit) :
    parseInteger s = some (Nat.ofDigitChars 10 s 0) :=
  if_pos ⟨hne, List.all_eq_true.mpr h⟩

theorem parseInteger_exponent (s t : List Char) : parseInteger (s ++ 'E' :: t) = none := by
  apply if_neg
  rintro ⟨-, hall⟩
  have hletter := List.all_eq_true.mp hall 'E' (List.mem_append_right s List.mem_cons_self)
  exact absurd hletter (by decide)

/-- The text of a number without its last digits. -/
theorem parseInteger_take {n count : ℕ} (hle : 10 ^ count ≤ n) :
    ¬ (Nat.toDigits 10 n).length < count ∧
      parseInteger ((Nat.toDigits 10 n).take ((Nat.toDigits 10 n).length - count)) =
        some (n / 10 ^ count) := by
  have hlength : count < (Nat.toDigits 10 n).length := by
    obtain rfl | hpos := Nat.eq_zero_or_pos count
    · exact Nat.length_toDigits_pos
    · by_contra hnot
      have hlt := (Nat.length_toDigits_le_iff (by decide) hpos).mp (not_lt.mp hnot)
      omega
  have hdigits : ∀ c ∈ Nat.toDigits 10 n, c.isDigit := fun c hc => isDigit_of_mem_decimal hc
  refine ⟨hlength.le.not_gt, ?_⟩
  rw [parseInteger_of_isDigit _ fun c hc => hdigits c (List.mem_of_mem_take hc)]
  · have hsplit : Nat.ofDigitChars 10 (Nat.toDigits 10 n) 0 = n := Nat.ofDigitChars_ten_toDigits
    rw [← List.take_append_drop ((Nat.toDigits 10 n).length - count) (Nat.toDigits 10 n),
      Nat.ofDigitChars_append, Nat.ofDigitChars_eq_ofDigitChars_zero, List.length_drop,
      Nat.sub_sub_self hlength.le] at hsplit
    have hlast := ofDigitChars_lt fun c
      (hc : c ∈ (Nat.toDigits 10 n).drop ((Nat.toDigits 10 n).length - count)) =>
        hdigits c (List.mem_of_mem_drop hc)
    rw [List.length_drop, Nat.sub_sub_self hlength.le] at hlast
    rw [Option.some.injEq]
    generalize Nat.ofDigitChars 10 (List.take _ _) 0 = first at hsplit ⊢
    rw [← hsplit, Nat.mul_add_div (by positivity), Nat.div_eq_of_lt hlast, Nat.add_zero]
  · rw [← List.length_pos_iff, List.length_take]
    omega

theorem length_formatHex_eq_iff (n : ℕ) : (formatHex n).length = 64 ↔ n < 2 ^ 255 := by
  rw [formatHex, length_hexText, ← Nat.size_le]
  omega

theorem hexValue_formatHex (n : ℕ) : hexValue (formatHex n) = n := by
  apply hexValue_hexText
  calc n < 2 ^ Nat.size n := Nat.lt_size_self n
    _ ≤ 2 ^ (4 * max 64 (Nat.size n / 4 + 1)) := Nat.pow_le_pow_right two_pos (by omega)
    _ = 16 ^ max 64 (Nat.size n / 4 + 1) := pow_mul 2 4 _

/-! ## Targets of printed numbers -/

/-- What is behind the first point is parsed. -/
theorem decimalTarget_eq {whole rest : List Char} (hwhole : '.' ∉ whole) :
    decimalTarget diff1B (whole ++ '.' :: rest) =
      (parseInteger rest).bind fun decimalDiff =>
        if (Nat.toDigits 10 (diff1B * decimalDiff)).length < rest.length then none
        else parseInteger ((Nat.toDigits 10 (diff1B * decimalDiff)).take
          ((Nat.toDigits 10 (diff1B * decimalDiff)).length - rest.length)) := by
  have hoffset : (whole ++ '.' :: rest).idxOf '.' = whole.length := by
    rw [List.idxOf_append_of_notMem hwhole, List.idxOf_cons_self, Nat.add_zero]
  have hprecision : (whole ++ '.' :: rest).length - 1 - whole.length = rest.length := by
    rw [List.length_append, List.length_cons]
    omega
  have hdrop : (whole ++ '.' :: rest).drop (whole.length + 1) = rest := by
    rw [List.drop_length_add_append]
    rfl
  simp only [decimalTarget, hoffset, hprecision, hdrop]
  rfl

/-- The decimals of a number give the same part of the target. -/
theorem decimalTarget_text {d : Decimal} (hscale : d.scale ≠ 0)
    (hle : 10 ^ d.scale ≤ diff1B * (d.mantissa.natAbs % 10 ^ d.scale)) :
    decimalTarget diff1B d.text =
      some (diff1B * (d.mantissa.natAbs % 10 ^ d.scale) / 10 ^ d.scale) := by
  have hlength := Decimal.length_fraction hscale
  have hne : d.fraction ≠ [] := by
    rw [← List.length_pos_iff, hlength]
    omega
  obtain ⟨hlong, htake⟩ := parseInteger_take hle
  rw [Decimal.text, decimalTarget_eq d.point_notMem,
    parseInteger_of_isDigit hne fun _ => Decimal.isDigit_fraction,
    Decimal.ofDigitChars_fraction hscale, Option.bind_some, hlength, if_neg hlong, htake]

section shapes

variable {s : ShortDecimal}

/-- A number with few decimals is written without an exponent and with all of them. -/
theorem decimalTarget_positionalText (diff1B : ℕ) (h : s.exponent < 0)
    (hle : 10 ^ (-s.exponent).toNat ≤ diff1B) :
    '.' ∈ s.positionalText ∧ decimalTarget diff1B s.positionalText =
      some (diff1B * (s.digits % 10 ^ (-s.exponent).toNat) / 10 ^ (-s.exponent).toNat) := by
  have hscale : (-s.exponent).toNat ≠ 0 := by omega
  have hdecimals : 1 ≤ s.digits % 10 ^ (-s.exponent).toNat := by
    by_contra hzero
    have hdvd : 10 ^ (-s.exponent).toNat ∣ s.digits :=
      Nat.dvd_of_mod_eq_zero (by omega)
    exact s.not_dvd ((dvd_pow_self 10 hscale).trans hdvd)
  rw [ShortDecimal.positionalText, if_neg (not_le.mpr h)]
  constructor
  · exact List.mem_append_right _ List.mem_cons_self
  · exact decimalTarget_text (d := ⟨s.digits, (-s.exponent).toNat⟩) hscale
      (hle.trans (Nat.le_mul_of_pos_right diff1B hdecimals))

theorem point_notMem_toDigits (n : ℕ) : '.' ∉ Nat.toDigits 10 n := by
  intro h
  exact absurd (isDigit_of_mem_decimal h) (by decide)

/-- A single digit with an exponent has no point, and behind another point is an exponent. -/
theorem scientificText_cases (diff1B : ℕ) (s : ShortDecimal) :
    (s.digits < 10 ∧ '.' ∉ s.scientificText) ∨
    (10 ≤ s.digits ∧ '.' ∈ s.scientificText ∧
      decimalTarget diff1B s.scientificText = none) := by
  obtain hone | hmore := lt_or_ge s.digits 10
  · left
    refine ⟨hone, ?_⟩
    simp only [ShortDecimal.scientificText, if_pos hone]
    intro hmem
    obtain hdigit | htail := List.mem_append.mp hmem
    · exact point_notMem_toDigits _ hdigit
    · simp only [List.mem_cons, List.mem_append, List.mem_replicate] at htail
      obtain heq | heq | ⟨-, heq⟩ | hdigit := htail
      · exact absurd heq (by decide)
      · split at heq <;> exact absurd heq (by decide)
      · exact absurd heq (by decide)
      · exact point_notMem_toDigits _ hdigit
  · right
    simp only [ShortDecimal.scientificText, if_neg (not_lt.mpr hmore)]
    refine ⟨hmore, ?_, ?_⟩
    · exact List.mem_append_left _ (List.mem_append_right _ List.mem_cons_self)
    · rw [Decimal.text, List.append_assoc, List.cons_append,
        decimalTarget_eq (Decimal.point_notMem _), parseInteger_exponent]
      rfl

end shapes

/-! ## The target of a difficulty -/

/-- The decimals of a reciprocal. -/
def reciprocal (format : DoubleFormat) (difficulty : ℚ) : ShortDecimal :=
  format.shortest (format.round difficulty⁻¹)

section shapes

variable (hfinite : format.round difficulty⁻¹ ≤ format.maxValue)

include hfinite

theorem encodeTarget_of_finite :
    encodeTarget diff1B format difficulty =
      if '.' ∈ (reciprocal format difficulty).text format.leastExponent then
        (decimalTarget diff1B ((reciprocal format difficulty).text format.leastExponent)).map
          fun decimalTarget =>
            formatHex (diff1B * ⌊format.round difficulty⁻¹⌋.toNat + decimalTarget)
      else some (formatHex (diff1B * ⌊format.round difficulty⁻¹⌋.toNat)) :=
  if_pos hfinite

/-- Without an exponent the target is the product without its decimals. -/
theorem encodeTarget_positional (hpos : 0 < format.round difficulty⁻¹)
    (hdiff : 10 ^ 21 ≤ diff1B)
    (hleast : -format.leastExponent ≤ (reciprocal format difficulty).leading)
    (hlarge : (reciprocal format difficulty).leading < 15) :
    encodeTarget diff1B format difficulty =
      some (formatHex ⌊diff1B * (reciprocal format difficulty).value⌋₊) := by
  have hround := format.round_round difficulty⁻¹
  have hvalue : (reciprocal format difficulty).value < 10 ^ 15 := by
    exact_mod_cast ShortDecimal.leading_lt_iff.mp hlarge
  have hwhole : ⌊format.round difficulty⁻¹⌋.toNat = ⌊(reciprocal format difficulty).value⌋₊ :=
    format.floor_shortest hpos hround hvalue
  have hdigits : (reciprocal format difficulty).digits < 10 ^ 17 :=
    format.digits_lt _ hpos hround
  have htext : (reciprocal format difficulty).text format.leastExponent =
      (reciprocal format difficulty).positionalText := if_pos ⟨hleast, hlarge⟩
  rw [encodeTarget_of_finite hfinite, htext, hwhole]
  clear hvalue hwhole htext
  generalize reciprocal format difficulty = s at hleast hlarge hdigits
  obtain hexponent | hexponent := lt_or_ge s.exponent 0
  · have hbound := ShortDecimal.exponent_bound format.leastExponent_le hdigits hleast
    obtain ⟨hpoint, htarget⟩ := decimalTarget_positionalText diff1B hexponent
      ((Nat.pow_le_pow_right (by decide) (by omega)).trans hdiff)
    rw [if_pos hpoint, htarget, Option.map_some, ShortDecimal.value_of_exponent_neg hexponent,
      Nat.floor_div_eq_div]
    generalize (-s.exponent).toNat = scale
    have hproduct : (diff1B : ℚ) * ((s.digits : ℚ) / ((10 ^ scale : ℕ) : ℚ)) =
        ((diff1B * s.digits : ℕ) : ℚ) / ((10 ^ scale : ℕ) : ℚ) := by
      push_cast
      ring
    rw [hproduct, Nat.floor_div_eq_div]
    congr 2
    calc diff1B * (s.digits / 10 ^ scale) + diff1B * (s.digits % 10 ^ scale) / 10 ^ scale
        = (10 ^ scale * (diff1B * (s.digits / 10 ^ scale)) +
            diff1B * (s.digits % 10 ^ scale)) / 10 ^ scale :=
          (Nat.mul_add_div (by positivity) _ _).symm
      _ = diff1B * (10 ^ scale * (s.digits / 10 ^ scale) + s.digits % 10 ^ scale) / 10 ^ scale := by
          congr 1
          ring
      _ = diff1B * s.digits / 10 ^ scale := by rw [Nat.div_add_mod]
  · have htext : s.positionalText = Nat.toDigits 10 (s.digits * 10 ^ s.exponent.toNat) :=
      if_pos hexponent
    rw [htext, if_neg (point_notMem_toDigits _), ShortDecimal.value_of_exponent_nonneg hexponent,
      Nat.floor_natCast, ← Nat.cast_mul, Nat.floor_natCast]

theorem encodeTarget_scientific
    (h : ¬ (-format.leastExponent ≤ (reciprocal format difficulty).leading ∧
      (reciprocal format difficulty).leading < 15)) :
    encodeTarget diff1B format difficulty =
      if (reciprocal format difficulty).digits < 10
        then some (formatHex (diff1B * ⌊format.round difficulty⁻¹⌋.toNat)) else none := by
  have htext : (reciprocal format difficulty).text format.leastExponent =
      (reciprocal format difficulty).scientificText := if_neg h
  rw [encodeTarget_of_finite hfinite, htext]
  obtain ⟨hone, hpoint⟩ | ⟨hmore, hpoint, htarget⟩ := scientificText_cases diff1B
    (reciprocal format difficulty)
  · rw [if_neg hpoint, if_pos hone]
  · rw [if_pos hpoint, htarget, if_neg (not_lt.mpr hmore)]
    rfl

end shapes

/-- The digits of a target within one unit of the product. -/
def EncodesTarget (diff1B : ℕ) (difficulty value : ℚ) (target : Option (List Char)) : Prop :=
  ∃ text, target = some text ∧ text.length = 64 ∧ (∀ c ∈ text, isHexDigit c) ∧
    |(hexValue text : ℚ) - diff1B * value| ≤ 1 ∧ (difficulty < diff1B → hexValue text ≠ 0)

theorem encodesTarget_formatHex {value : ℚ} {n : ℕ} :
    EncodesTarget diff1B difficulty value (some (formatHex n)) ↔
      n < 2 ^ 255 ∧ |(n : ℚ) - diff1B * value| ≤ 1 ∧ (difficulty < diff1B → n ≠ 0) := by
  have hdigits : ∀ c ∈ formatHex n, isHexDigit c := isHexDigit_hexText _ _
  constructor
  · rintro ⟨text, htext, hlength, -, hnear, hne⟩
    cases htext
    rw [hexValue_formatHex] at hnear hne
    exact ⟨(length_formatHex_eq_iff n).mp hlength, hnear, hne⟩
  · rintro ⟨hlt, hnear, hne⟩
    refine ⟨formatHex n, rfl, (length_formatHex_eq_iff n).mpr hlt, hdigits, ?_, ?_⟩
    · rwa [hexValue_formatHex]
    · rwa [hexValue_formatHex]

/-- The decimals of the reciprocal have no exponent and a target in range, or they are one
digit with an exponent and the difficulty exceeds that of the largest target. -/
def HasTarget (diff1B : ℕ) (format : DoubleFormat) (difficulty : ℚ) : Prop :=
  let s := reciprocal format difficulty
  format.round difficulty⁻¹ ≤ format.maxValue ∧
    (((10 : ℚ) ^ (-format.leastExponent : ℤ) ≤ s.value ∧ diff1B * s.value < 2 ^ 255) ∨
      (s.value < (10 : ℚ) ^ (-format.leastExponent : ℤ) ∧ s.digits < 10 ∧
        diff1B * s.value ≤ 1 ∧ diff1B ≤ difficulty))

section conditions

variable (hpos : 0 < format.round difficulty⁻¹)
  (hfinite : format.round difficulty⁻¹ ≤ format.maxValue)

include hpos hfinite

theorem encodesTarget_positional (hdiff : 10 ^ 21 ≤ diff1B)
    (hleast : -format.leastExponent ≤ (reciprocal format difficulty).leading)
    (hlarge : (reciprocal format difficulty).leading < 15) :
    EncodesTarget diff1B difficulty (reciprocal format difficulty).value
        (encodeTarget diff1B format difficulty) ↔
      diff1B * (reciprocal format difficulty).value < 2 ^ 255 := by
  rw [encodeTarget_positional hfinite hpos hdiff hleast hlarge, encodesTarget_formatHex]
  have hvalue : (10 : ℚ) ^ (-5 : ℤ) ≤ (reciprocal format difficulty).value :=
    calc (10 : ℚ) ^ (-5 : ℤ) ≤ 10 ^ (reciprocal format difficulty).leading :=
          zpow_le_zpow_right₀ (by norm_num) (by have := format.leastExponent_le; omega)
      _ ≤ _ := ShortDecimal.leading_bounds _ |>.1
  generalize (reciprocal format difficulty).value = value at hvalue
  have hone : 1 ≤ (diff1B : ℚ) * value :=
    calc (1 : ℚ) ≤ 10 ^ 21 * 10 ^ (-5 : ℤ) := by norm_num
      _ ≤ diff1B * value :=
          mul_le_mul (by exact_mod_cast hdiff) hvalue (by positivity) (Nat.cast_nonneg _)
  have hnonneg := zero_le_one.trans hone
  have hle := Nat.floor_le hnonneg
  have hsucc := Nat.lt_floor_add_one ((diff1B : ℚ) * value)
  constructor
  · rintro ⟨hlt, -, -⟩
    exact_mod_cast (Nat.floor_lt hnonneg).mp hlt
  · intro hlt
    refine ⟨(Nat.floor_lt hnonneg).mpr (by exact_mod_cast hlt), ?_, ?_⟩
    · rw [abs_le]
      constructor <;> linarith
    · intro _
      exact (Nat.floor_pos.mpr hone).ne'

/-- A small number has no whole part, and a large one more digits than fit. -/
theorem encodesTarget_scientific (hdiff : 2 ^ 255 ≤ diff1B * 10 ^ 15)
    (h : ¬ (-format.leastExponent ≤ (reciprocal format difficulty).leading ∧
      (reciprocal format difficulty).leading < 15)) :
    EncodesTarget diff1B difficulty (reciprocal format difficulty).value
        (encodeTarget diff1B format difficulty) ↔
      (reciprocal format difficulty).leading < -format.leastExponent ∧
        (reciprocal format difficulty).digits < 10 ∧
        diff1B * (reciprocal format difficulty).value ≤ 1 ∧
        diff1B ≤ difficulty := by
  have hround := format.round_round difficulty⁻¹
  have hvalue := (reciprocal format difficulty).value_pos
  rw [encodeTarget_scientific hfinite h]
  split
  · rename_i hone
    rw [encodesTarget_formatHex]
    by_cases hsmall : (reciprocal format difficulty).leading < -format.leastExponent
    · have hlt : (reciprocal format difficulty).value < 1 :=
        calc (reciprocal format difficulty).value
            < (10 : ℚ) ^ (-format.leastExponent : ℤ) := ShortDecimal.leading_lt_iff.mp hsmall
          _ ≤ 10 ^ (0 : ℤ) := zpow_le_zpow_right₀ (by norm_num) (by omega)
          _ = 1 := zpow_zero _
      have hwhole : ⌊format.round difficulty⁻¹⌋.toNat = 0 := by
        have hfloor := format.floor_shortest hpos hround (hlt.trans (by norm_num))
        exact hfloor.trans (Nat.floor_eq_zero.mpr hlt)
      rw [hwhole, Nat.mul_zero, Nat.cast_zero, zero_sub, abs_neg,
        abs_of_nonneg (mul_nonneg (Nat.cast_nonneg _) hvalue.le)]
      constructor
      · rintro ⟨-, hle, hne⟩
        exact ⟨hsmall, hone, hle, not_lt.mp fun hlt => hne hlt rfl⟩
      · rintro ⟨-, -, hle, hdifficulty⟩
        exact ⟨by decide, hle, fun hlt => absurd hlt (not_lt.mpr hdifficulty)⟩
    · constructor
      · rintro ⟨hlt, -, -⟩
        have hlarge : ¬ (reciprocal format difficulty).leading < 15 :=
          fun hlarge => h ⟨not_lt.mp hsmall, hlarge⟩
        have hvalue := ShortDecimal.le_leading_iff.mp (not_lt.mp hlarge)
        have hwhole := format.le_floor_of_large hpos hround (by exact_mod_cast hvalue)
        exact absurd (hdiff.trans (Nat.mul_le_mul_left diff1B hwhole)) hlt.not_ge
      · rintro ⟨hless, -⟩
        exact absurd hless hsmall
  · rename_i hmore
    constructor
    · rintro ⟨text, htext, -⟩
      cases htext
    · rintro ⟨-, hone, -⟩
      exact absurd hone hmore

end conditions

theorem encodesTarget_iff_hasTarget (hpos : 0 < difficulty) (hle : difficulty ≤ format.maxValue)
    (hdiff : 10 ^ 21 ≤ diff1B) (hdiff' : 2 ^ 255 ≤ diff1B * 10 ^ 15) :
    EncodesTarget diff1B difficulty (reciprocal format difficulty).value
      (encodeTarget diff1B format difficulty) ↔ HasTarget diff1B format difficulty := by
  have hreciprocal := format.round_inv_pos difficulty hpos hle
  by_cases hfinite : format.round difficulty⁻¹ ≤ format.maxValue
  · simp only [HasTarget, ← ShortDecimal.leading_lt_iff, ← ShortDecimal.le_leading_iff,
      and_iff_right hfinite]
    by_cases hpositional : -format.leastExponent ≤ (reciprocal format difficulty).leading ∧
        (reciprocal format difficulty).leading < 15
    · obtain ⟨hleast, hlarge⟩ := hpositional
      rw [encodesTarget_positional hreciprocal hfinite hdiff hleast hlarge]
      constructor
      · exact fun hlt => Or.inl ⟨hleast, hlt⟩
      · rintro (⟨-, hlt⟩ | ⟨hless, -⟩)
        · exact hlt
        · exact absurd hless hleast.not_gt
    · rw [encodesTarget_scientific hreciprocal hfinite hdiff' hpositional]
      constructor
      · exact Or.inr
      · rintro (⟨hleast, hlt⟩ | hsmall)
        · refine absurd ⟨hleast, not_le.mp fun hlarge => hlt.not_ge ?_⟩ hpositional
          have hvalue := ShortDecimal.le_leading_iff.mp hlarge
          calc (2 : ℚ) ^ 255 ≤ diff1B * 10 ^ 15 := by exact_mod_cast hdiff'
            _ ≤ diff1B * (reciprocal format difficulty).value :=
                mul_le_mul_of_nonneg_left (by exact_mod_cast hvalue) (Nat.cast_nonneg _)
        · exact hsmall
  · have hnone : encodeTarget diff1B format difficulty = none := if_neg hfinite
    rw [hnone]
    constructor
    · rintro ⟨text, htext, -⟩
      cases htext
    · rintro ⟨hfinite', -⟩
      exact absurd hfinite' hfinite

/-- Both functions give a target if the decimals do. -/
theorem encodesTarget_iff (hpos : 0 < difficulty) (hle : difficulty ≤ format.maxValue) :
    (EncodesTarget firoDiff1B difficulty (reciprocal format difficulty).value
        (firoEncodeTarget format difficulty) ↔ HasTarget firoDiff1B format difficulty) ∧
      (EncodesTarget ravencoinDiff1B difficulty (reciprocal format difficulty).value
        (ravencoinEncodeTarget format difficulty) ↔
          HasTarget ravencoinDiff1B format difficulty) :=
  ⟨encodesTarget_iff_hasTarget hpos hle (by decide) (by decide),
    encodesTarget_iff_hasTarget hpos hle (by decide) (by decide)⟩

end targets

theorem value_reciprocal {x : ℚ} (hpos : 0 < x) (hround : roundTenDecimals x⁻¹ = x⁻¹) :
    (reciprocal tenDecimals x).value = x⁻¹ := by
  have hvalue := (value_shortestTenDecimals (inv_pos.mpr hpos) hround).1
  rw [← hround] at hvalue
  exact hvalue.trans hround

theorem encodesTarget_two :
    EncodesTarget firoDiff1B 2 (reciprocal tenDecimals 2).value (firoEncodeTarget tenDecimals 2) ∧
      EncodesTarget ravencoinDiff1B 2 (reciprocal tenDecimals 2).value
        (ravencoinEncodeTarget tenDecimals 2) := by
  have hround : roundTenDecimals 2⁻¹ = 2⁻¹ := by
    have hdiv := roundTenDecimals_div (n := 5000000000) (by norm_num)
    norm_num at hdiv
    norm_num
    exact hdiv
  have hvalue := value_reciprocal two_pos hround
  have hfinite : tenDecimals.round 2⁻¹ ≤ tenDecimals.maxValue := by
    change roundTenDecimals 2⁻¹ ≤ 10 ^ 10
    rw [hround]
    norm_num
  have hleast : (10 : ℚ) ^ (-(5 : ℕ) : ℤ) ≤ 2⁻¹ := by norm_num
  have hle : (2 : ℚ) ≤ tenDecimals.maxValue := by norm_num [tenDecimals]
  obtain ⟨hfiro, hravencoin⟩ := encodesTarget_iff two_pos hle
  constructor
  · refine hfiro.mpr ⟨hfinite, Or.inl ⟨hleast.trans_eq hvalue.symm, ?_⟩⟩
    change _ * (reciprocal tenDecimals 2).value < _
    rw [hvalue]
    norm_num [firoDiff1B]
  · refine hravencoin.mpr ⟨hfinite, Or.inl ⟨hleast.trans_eq hvalue.symm, ?_⟩⟩
    change _ * (reciprocal tenDecimals 2).value < _
    rw [hvalue]
    norm_num [ravencoinDiff1B]

theorem not_hasTarget {diff1B n : ℕ} {x : ℚ} (hpos : 0 < x) (hn : x⁻¹ = n / 10 ^ 10)
    (hsmall : n < 100000) (hdiff : x < diff1B) : ¬ HasTarget diff1B tenDecimals x := by
  have hround : roundTenDecimals x⁻¹ = x⁻¹ := by
    rw [hn]
    exact roundTenDecimals_div (by omega)
  rintro ⟨-, ⟨hleast, -⟩ | ⟨-, -, -, hle⟩⟩
  · have hvalue : (10 : ℚ) ^ (-(5 : ℕ) : ℤ) ≤ n / 10 ^ 10 :=
      calc (10 : ℚ) ^ (-(5 : ℕ) : ℤ) ≤ (reciprocal tenDecimals x).value := hleast
        _ = x⁻¹ := value_reciprocal hpos hround
        _ = n / 10 ^ 10 := hn
    rw [le_div_iff₀ (by norm_num)] at hvalue
    norm_num at hvalue
    exact absurd hsmall (Nat.not_lt.mpr (by exact_mod_cast hvalue))
  · exact absurd hdiff hle.not_gt

/-- `1E-06` has no point, and behind that of `1.5625E-06` is an exponent. -/
theorem not_encodesTarget :
    ¬ EncodesTarget firoDiff1B 1000000 (reciprocal tenDecimals 1000000).value
        (firoEncodeTarget tenDecimals 1000000) ∧
      ¬ EncodesTarget ravencoinDiff1B 640000 (reciprocal tenDecimals 640000).value
        (ravencoinEncodeTarget tenDecimals 640000) := by
  constructor
  · intro h
    have hle : (1000000 : ℚ) ≤ tenDecimals.maxValue := by norm_num [tenDecimals]
    have htarget := (encodesTarget_iff_hasTarget (by norm_num) hle (by decide) (by decide)).mp h
    exact not_hasTarget (n := 10000) (by norm_num) (by norm_num) (by norm_num)
      (by norm_num [firoDiff1B]) htarget
  · intro h
    have hle : (640000 : ℚ) ≤ tenDecimals.maxValue := by norm_num [tenDecimals]
    have htarget := (encodesTarget_iff_hasTarget (by norm_num) hle (by decide) (by decide)).mp h
    exact not_hasTarget (n := 15625) (by norm_num) (by norm_num) (by norm_num)
      (by norm_num [ravencoinDiff1B]) htarget

end Miningcore.Progpow
