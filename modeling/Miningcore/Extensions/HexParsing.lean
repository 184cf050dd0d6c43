import Mathlib.Data.List.TakeWhile
import Miningcore.Foundation.HexDigits

/-!
# Reading hexadecimal texts

The ways submitted texts become numbers and bytes. None of them is strict: the
number styles allow white space and any number of leading zeros, the conversion
a sign and a prefix, and the bytes come from any characters at all.

## Implementation notes

A string is the list of its characters. Comparisons are ordinal.
-/

namespace Miningcore

open Foundation

inductive ParseException where
  | argument
  | argumentOutOfRange
  | format
  | overflow
deriving DecidableEq

def isWhite (c : Char) : Bool := c.toNat == 32 || (9 ≤ c.toNat && c.toNat ≤ 13)

/-- `char.IsWhiteSpace` -/
def isWhiteSpace (c : Char) : Bool :=
  isWhite c || (0x2000 ≤ c.toNat && c.toNat ≤ 0x200a) ||
    [0x85, 0xa0, 0x1680, 0x2028, 0x2029, 0x202f, 0x205f, 0x3000].contains c.toNat

/-- `NumberStyles.HexNumber`: digits between white space, and null characters at the end. -/
def parseHexNumber (bits : Nat) (s : List Char) : Except ParseException Nat :=
  let number := s.dropWhile isWhite
  let digits := number.takeWhile isHexDigit
  let rest := (number.dropWhile isHexDigit).dropWhile isWhite
  if digits = [] ∨ rest.any (fun c => c.toNat ≠ 0) then .error .format
  else if 2 ^ bits ≤ hexValue digits then .error .overflow
  else .ok (hexValue digits)

def tryParseHexNumber (bits : Nat) (s : List Char) : Option Nat :=
  (parseHexNumber bits s).toOption

/-- The prefix `Convert` skips. -/
def dropHexPrefix : List Char → List Char
  | '0' :: 'x' :: digits => digits
  | '0' :: 'X' :: digits => digits
  | digits => digits

/-- Digits up to the end of the text. -/
def grabDigits (number : List Char) : Except ParseException Nat :=
  let digits := number.takeWhile isHexDigit
  if 2 ^ 64 ≤ hexValue digits then .error .overflow
  else if digits = [] ∨ number.dropWhile isHexDigit ≠ [] then .error .format
  else .ok (hexValue digits)

/-- `Convert.ToUInt64` to base 16. -/
def convertToUInt64 : List Char → Except ParseException Nat
  | [] => .error .argumentOutOfRange
  | '-' :: _ => .error .argument
  | '+' :: number => grabDigits (dropHexPrefix number)
  | number => grabDigits (dropHexPrefix number)

/-- `StripHexPrefix`, whatever the case of the prefix. -/
def stripHexPrefix (s : List Char) : List Char :=
  if ['0', 'x'].isPrefixOf (ignoringCase s) then s.drop 2 else s

def isLowerHexDigit (c : Char) : Bool := isHexDigit c && !(65 ≤ c.toNat && c.toNat ≤ 70)

/-- The regular expression of so many lower case digits, whose end is also in front of a final line
feed. -/
def matchesDigits (count : ℕ) (s : List Char) : Bool :=
  let digits := s.take count
  digits.length = count && digits.all isLowerHexDigit &&
    (s.drop count = [] || s.drop count = ['\n'])

def getHexVal (hex : Char) : Int :=
  let val := hex.toNat
  (val : Int) - (if val < 58 then 48 else if val < 97 then 55 else 87)

def toByte (value : Int) : UInt8 := (value % 256).toNat.toUInt8

/-- The bytes of the pairs of characters; a last character without a partner is dropped. -/
def pairBytes : List Char → List UInt8
  | high :: low :: rest => toByte (getHexVal high * 16 + getHexVal low) :: pairBytes rest
  | _ => []

def hexToByteArray (s : List Char) : List UInt8 :=
  pairBytes (if ['0', 'x'].isPrefixOf s then s.drop 2 else s)

def hexToReverseByteArray (s : List Char) : List UInt8 := (hexToByteArray s).reverse

/-- `ToHexString`, in lower case. -/
def toHexString (bytes : List UInt8) : List Char := bytes.flatMap fun byte => hexText 2 byte.toNat

/-- The text is made of pairs of digits. -/
def IsHexPairs (s : List Char) : Prop := Even s.length ∧ ∀ c ∈ s, isHexDigit c

instance instDecidableIsHexPairs (s : List Char) : Decidable (IsHexPairs s) :=
  haveI : Decidable (∀ c ∈ s, isHexDigit c) := List.decidableBAll _ _
  inferInstanceAs (Decidable (_ ∧ _))

theorem isHexPairs_nil : IsHexPairs [] := by decide

section digits

variable {s : List Char}

theorem takeWhile_isHexDigit (h : ∀ c ∈ s, isHexDigit c) : s.takeWhile isHexDigit = s :=
  List.takeWhile_eq_self_iff.mpr h

theorem dropWhile_isHexDigit (h : ∀ c ∈ s, isHexDigit c) : s.dropWhile isHexDigit = [] :=
  List.dropWhile_eq_nil_iff.mpr h

theorem not_isWhite_of_isHexDigit {c : Char} (h : isHexDigit c) : isWhite c = false := by
  obtain ⟨d, hd⟩ := Option.isSome_iff_exists.mp h
  have hbounds := hexDigit_bounds hd
  simp only [isWhite, Bool.or_eq_false_iff, beq_eq_false_iff_ne, Bool.and_eq_false_iff,
    decide_eq_false_iff_not]
  omega

/-- A prefix is no digit. -/
theorem dropHexPrefix_of_isHexDigit (h : ∀ c ∈ s, isHexDigit c) : dropHexPrefix s = s := by
  rw [dropHexPrefix.eq_def]
  split
  · exact absurd (h 'x' (by simp)) (by decide)
  · exact absurd (h 'X' (by simp)) (by decide)
  · rfl

/-- Digits in place of the whole text, at most as many as the number has. -/
theorem parseHexNumber_of_isHexDigit {bits : Nat} (hempty : s ≠ [])
    (h : ∀ c ∈ s, isHexDigit c) (hlength : 16 ^ s.length ≤ 2 ^ bits) :
    parseHexNumber bits s = .ok (hexValue s) := by
  have hwhite : s.dropWhile isWhite = s := by
    obtain ⟨c, rest, rfl⟩ := List.exists_cons_of_ne_nil hempty
    rw [List.dropWhile_cons_of_neg]
    rw [not_isWhite_of_isHexDigit (h c List.mem_cons_self)]
    decide
  have hvalue := hexValue_lt h
  simp only [parseHexNumber, hwhite, takeWhile_isHexDigit h, dropWhile_isHexDigit h]
  rw [if_neg (by simpa using hempty), if_neg (by omega)]

theorem tryParseHexNumber_of_isHexDigit {bits : Nat} (hempty : s ≠ [])
    (h : ∀ c ∈ s, isHexDigit c) (hlength : 16 ^ s.length ≤ 2 ^ bits) :
    tryParseHexNumber bits s = some (hexValue s) := by
  rw [tryParseHexNumber, parseHexNumber_of_isHexDigit hempty h hlength]
  rfl

/-- Sixteen digits fit into 64 bits. -/
theorem parseHexNumber_of_length (hlength : s.length = 16) (h : ∀ c ∈ s, isHexDigit c) :
    parseHexNumber 64 s = .ok (hexValue s) := by
  apply parseHexNumber_of_isHexDigit _ h
  · rw [hlength]
    decide
  · rw [← List.length_pos_iff, hlength]
    decide

theorem tryParseHexNumber_of_length (hlength : s.length = 16) (h : ∀ c ∈ s, isHexDigit c) :
    tryParseHexNumber 64 s = some (hexValue s) := by
  rw [tryParseHexNumber, parseHexNumber_of_length hlength h]
  rfl

theorem parseHexNumber_lt {bits n : Nat} (h : parseHexNumber bits s = .ok n) : n < 2 ^ bits := by
  simp only [parseHexNumber] at h
  split at h
  · cases h
  · split at h
    · cases h
    · cases h
      omega

/-- Digits are converted when their value fits, whatever their number. -/
theorem convertToUInt64_eq_ok_iff (hempty : s ≠ []) (h : ∀ c ∈ s, isHexDigit c) {n : Nat} :
    convertToUInt64 s = .ok n ↔ hexValue s < 2 ^ 64 ∧ hexValue s = n := by
  have hgrab : grabDigits (dropHexPrefix s) = .ok n ↔ hexValue s < 2 ^ 64 ∧ hexValue s = n := by
    simp only [grabDigits, dropHexPrefix_of_isHexDigit h, takeWhile_isHexDigit h,
      dropWhile_isHexDigit h]
    by_cases hvalue : 2 ^ 64 ≤ hexValue s
    · rw [if_pos hvalue]
      exact iff_of_false nofun fun hfits => hfits.1.not_ge hvalue
    · rw [if_neg hvalue, if_neg (by simpa using hempty), Except.ok.injEq]
      exact ⟨fun hn => ⟨not_le.mp hvalue, hn⟩, fun hfits => hfits.2⟩
  rw [convertToUInt64.eq_def]
  split
  · exact absurd rfl hempty
  · exact absurd (h '-' (by simp)) (by decide)
  · exact absurd (h '+' (by simp)) (by decide)
  · exact hgrab

theorem convertToUInt64_of_isHexDigit (hempty : s ≠ []) (h : ∀ c ∈ s, isHexDigit c)
    (hlength : 16 ^ s.length ≤ 2 ^ 64) : convertToUInt64 s = .ok (hexValue s) :=
  (convertToUInt64_eq_ok_iff hempty h).mpr ⟨(hexValue_lt h).trans_le hlength, rfl⟩

theorem grabDigits_lt {n : Nat} (h : grabDigits s = .ok n) : n < 2 ^ 64 := by
  simp only [grabDigits] at h
  split at h
  · cases h
  · split at h
    · cases h
    · cases h
      omega

theorem convertToUInt64_lt {n : Nat} (h : convertToUInt64 s = .ok n) : n < 2 ^ 64 := by
  rw [convertToUInt64.eq_def] at h
  split at h
  · cases h
  · cases h
  · exact grabDigits_lt h
  · exact grabDigits_lt h

theorem getHexVal_of_hexDigit {c : Char} {d : Nat} (h : hexDigit? c = some d) :
    getHexVal c = d := by
  have hbounds := hexDigit_bounds h
  rw [hexDigit?] at h
  rw [getHexVal]
  obtain hcase | hcase | hcase := hbounds
  · rw [if_pos hcase, Option.some.injEq] at h
    rw [if_pos (by omega)]
    omega
  · rw [if_neg (by omega), if_pos hcase, Option.some.injEq] at h
    rw [if_neg (by omega), if_neg (by omega)]
    omega
  · rw [if_neg (by omega), if_neg (by omega), if_pos hcase, Option.some.injEq] at h
    rw [if_neg (by omega), if_pos (by omega)]
    omega

theorem toNat_toByte {high low : Nat} (hhigh : high < 16) (hlow : low < 16) :
    (toByte (high * 16 + low)).toNat = high * 16 + low := by
  rw [toByte, Nat.toUInt8_eq, UInt8.toNat_ofNat']
  omega

theorem toLower_eq_of_toByte_eq {high low high' low' : Char} (hhigh : isHexDigit high)
    (hlow : isHexDigit low) (hhigh' : isHexDigit high') (hlow' : isHexDigit low')
    (h : toByte (getHexVal high * 16 + getHexVal low) =
      toByte (getHexVal high' * 16 + getHexVal low')) :
    high.toLower = high'.toLower ∧ low.toLower = low'.toLower := by
  obtain ⟨dh, hdh⟩ := Option.isSome_iff_exists.mp hhigh
  obtain ⟨dl, hdl⟩ := Option.isSome_iff_exists.mp hlow
  obtain ⟨dh', hdh'⟩ := Option.isSome_iff_exists.mp hhigh'
  obtain ⟨dl', hdl'⟩ := Option.isSome_iff_exists.mp hlow'
  have hnat := congrArg UInt8.toNat h
  rw [getHexVal_of_hexDigit hdh, getHexVal_of_hexDigit hdl, getHexVal_of_hexDigit hdh',
    getHexVal_of_hexDigit hdl', toNat_toByte (hexDigit?_lt hdh) (hexDigit?_lt hdl),
    toNat_toByte (hexDigit?_lt hdh') (hexDigit?_lt hdl')] at hnat
  have hlt := hexDigit?_lt hdl
  have hlt' := hexDigit?_lt hdl'
  have hdigits : dh = dh' ∧ dl = dl' := by omega
  rw [toLower_eq_hexChar hdh, toLower_eq_hexChar hdl, toLower_eq_hexChar hdh',
    toLower_eq_hexChar hdl', hdigits.1, hdigits.2]
  exact ⟨rfl, rfl⟩

/-- Digits in pairs are told apart by their bytes, up to the case. -/
theorem ignoringCase_eq_of_pairBytes_eq {s t : List Char} (hs : ∀ c ∈ s, isHexDigit c)
    (ht : ∀ c ∈ t, isHexDigit c) (hseven : Even s.length) (hteven : Even t.length)
    (h : pairBytes s = pairBytes t) : ignoringCase s = ignoringCase t := by
  match s, t with
  | [], [] => rfl
  | [_], _ => simp at hseven
  | _, [_] => simp at hteven
  | [], _ :: _ :: _ => simp [pairBytes] at h
  | _ :: _ :: _, [] => simp [pairBytes] at h
  | high :: low :: rest, high' :: low' :: rest' =>
      rw [pairBytes, pairBytes, List.cons.injEq] at h
      obtain ⟨hhigh, hlow⟩ := toLower_eq_of_toByte_eq (hs high (by simp)) (hs low (by simp))
        (ht high' (by simp)) (ht low' (by simp)) h.1
      have hrest := ignoringCase_eq_of_pairBytes_eq (fun c hc => hs c (by simp [hc]))
        (fun c hc => ht c (by simp [hc])) (by simpa [Nat.even_add_one] using hseven)
        (by simpa [Nat.even_add_one] using hteven) h.2
      simp only [ignoringCase, List.map_cons] at hrest ⊢
      rw [hhigh, hlow, hrest]

/-- Pairs in front of others. -/
theorem pairBytes_append {s : List Char} (h : Even s.length) (t : List Char) :
    pairBytes (s ++ t) = pairBytes s ++ pairBytes t := by
  match s with
  | [] => rfl
  | [_] => simp at h
  | high :: low :: rest =>
      rw [List.cons_append, List.cons_append, pairBytes, pairBytes,
        pairBytes_append (by simpa [Nat.even_add_one] using h) t, List.cons_append]

/-- Digits have no prefix to strip. -/
theorem not_isPrefixOf_of_isHexDigit (h : ∀ c ∈ s, isHexDigit c) : ¬ ['0', 'x'].isPrefixOf s := by
  intro hprefix
  have hmem : 'x' ∈ s := (List.isPrefixOf_iff_prefix.mp hprefix).subset (by simp)
  exact absurd (h 'x' hmem) (by decide)

theorem hexToByteArray_of_isHexDigit (h : ∀ c ∈ s, isHexDigit c) :
    hexToByteArray s = pairBytes s := by
  rw [hexToByteArray, if_neg (not_isPrefixOf_of_isHexDigit h)]

/-- A line feed behind pairs of digits has no partner. -/
theorem hexToByteArray_lineFeed (h : ∀ c ∈ s, isHexDigit c) (heven : Even s.length) :
    hexToByteArray (s ++ ['\n']) = hexToByteArray s := by
  have hstripped : ¬ ['0', 'x'].isPrefixOf (s ++ ['\n']) := by
    intro hstarts
    have hmem := (List.isPrefixOf_iff_prefix.mp hstarts).subset
      (List.mem_cons_of_mem '0' List.mem_cons_self)
    rw [List.mem_append, List.mem_singleton] at hmem
    obtain hdigit | hfeed := hmem
    · exact absurd (h 'x' hdigit) (by decide)
    · exact absurd hfeed (by decide)
  rw [hexToByteArray_of_isHexDigit h, hexToByteArray, if_neg hstripped, pairBytes_append heven,
    show pairBytes ['\n'] = [] from rfl, List.append_nil]

theorem isHexDigit_toHexString (bytes : List UInt8) : ∀ c ∈ toHexString bytes, isHexDigit c := by
  intro c hc
  obtain ⟨byte, -, hmem⟩ := List.mem_flatMap.mp hc
  exact isHexDigit_hexText 2 byte.toNat c hmem

theorem length_toHexString (bytes : List UInt8) :
    (toHexString bytes).length = 2 * bytes.length := by
  induction bytes with
  | nil => rfl
  | cons byte bytes ih =>
      have hcons : toHexString (byte :: bytes) = hexText 2 byte.toNat ++ toHexString bytes := rfl
      rw [hcons, List.length_append, length_hexText, ih, List.length_cons]
      omega

theorem pairBytes_hexText (byte : UInt8) : pairBytes (hexText 2 byte.toNat) = [byte] := by
  have hlt := byte.toNat_lt
  have hhigh := hexDigit?_hexChar (Nat.mod_lt (byte.toNat / 16) (show 0 < 16 by omega))
  have hlow := hexDigit?_hexChar (Nat.mod_lt byte.toNat (show 0 < 16 by omega))
  have htoByte : toByte (getHexVal (hexChar (byte.toNat / 16 % 16)) * 16 +
      getHexVal (hexChar (byte.toNat % 16))) = byte := by
    rw [getHexVal_of_hexDigit hhigh, getHexVal_of_hexDigit hlow, ← UInt8.toNat_inj,
      toNat_toByte (hexDigit?_lt hhigh) (hexDigit?_lt hlow)]
    omega
  rw [hexText, hexText, hexText, List.nil_append, List.singleton_append, pairBytes, htoByte,
    pairBytes]
  intro high low rest h
  cases h

theorem pairBytes_toHexString (bytes : List UInt8) : pairBytes (toHexString bytes) = bytes := by
  induction bytes with
  | nil => rfl
  | cons byte bytes ih =>
      have hcons : toHexString (byte :: bytes) = hexText 2 byte.toNat ++ toHexString bytes := rfl
      have heven : Even (hexText 2 byte.toNat).length := by
        rw [length_hexText]
        decide
      rw [hcons, pairBytes_append heven, pairBytes_hexText, ih, List.singleton_append]

theorem hexToByteArray_toHexString (bytes : List UInt8) :
    hexToByteArray (toHexString bytes) = bytes := by
  rw [hexToByteArray_of_isHexDigit (isHexDigit_toHexString bytes), pairBytes_toHexString]

theorem toHexString_injective : Function.Injective toHexString :=
  Function.LeftInverse.injective pairBytes_toHexString

theorem toHexString_append (bytes bytes' : List UInt8) :
    toHexString (bytes ++ bytes') = toHexString bytes ++ toHexString bytes' :=
  List.flatMap_append

theorem ignoringCase_toHexString (bytes : List UInt8) :
    ignoringCase (toHexString bytes) = toHexString bytes := by
  induction bytes with
  | nil => rfl
  | cons byte bytes ih =>
      have hcons : toHexString (byte :: bytes) = hexText 2 byte.toNat ++ toHexString bytes := rfl
      rw [hcons, ignoringCase_append, ih, ignoringCase_hexText]

theorem length_pairBytes (s : List Char) : (pairBytes s).length = s.length / 2 := by
  match s with
  | [] => rfl
  | [_] => simp [pairBytes]
  | high :: low :: rest =>
      rw [pairBytes, List.length_cons, length_pairBytes rest, List.length_cons, List.length_cons]
      omega

/-- Pairs of digits are the text of their bytes, up to the case. -/
theorem toHexString_pairBytes (h : ∀ c ∈ s, isHexDigit c) (heven : Even s.length) :
    toHexString (pairBytes s) = ignoringCase s := by
  rw [← ignoringCase_toHexString]
  apply ignoringCase_eq_of_pairBytes_eq (isHexDigit_toHexString _) h _ heven
    (pairBytes_toHexString _)
  rw [length_toHexString]
  exact even_two_mul _

/-- Pairs of digits are told apart by their bytes exactly up to the case. -/
theorem hexToByteArray_eq_iff {t : List Char} (hs : IsHexPairs s) (ht : IsHexPairs t) :
    hexToByteArray s = hexToByteArray t ↔ ignoringCase s = ignoringCase t := by
  rw [hexToByteArray_of_isHexDigit hs.2, hexToByteArray_of_isHexDigit ht.2,
    ← toHexString_injective.eq_iff, toHexString_pairBytes hs.2 hs.1,
    toHexString_pairBytes ht.2 ht.1]

theorem isHexDigit_of_isLowerHexDigit {c : Char} (h : isLowerHexDigit c) : isHexDigit c := by
  rw [isLowerHexDigit, Bool.and_eq_true] at h
  exact h.1

/-- What is matched is the digits, with or without a line feed. -/
theorem matchesDigits_iff {count : Nat} : matchesDigits count s ↔
    ∃ digits, digits.length = count ∧ (∀ c ∈ digits, isLowerHexDigit c) ∧
      (s = digits ∨ s = digits ++ ['\n']) := by
  constructor
  · intro h
    simp only [matchesDigits, Bool.and_eq_true, Bool.or_eq_true, decide_eq_true_iff,
      List.all_eq_true] at h
    obtain ⟨⟨hlength, hdigits⟩, hend⟩ := h
    refine ⟨s.take count, hlength, hdigits, ?_⟩
    obtain hend | hend := hend
    · exact Or.inl (by simpa [hend] using (List.take_append_drop count s).symm)
    · exact Or.inr (by rw [← hend, List.take_append_drop])
  · rintro ⟨digits, rfl, hdigits, rfl | rfl⟩
    · simpa [matchesDigits] using hdigits
    · simpa [matchesDigits] using hdigits

/-- Without a line feed, it is the digits. -/
theorem of_matchesDigits {count : Nat} (h : matchesDigits count s)
    (hend : s.getLast? ≠ some '\n') : s.length = count ∧ ∀ c ∈ s, isLowerHexDigit c := by
  obtain ⟨digits, hlength, hdigits, rfl | rfl⟩ := matchesDigits_iff.mp h
  · exact ⟨hlength, hdigits⟩
  · exact absurd List.getLast?_concat hend

/-- A number without white space or null characters is digits only. -/
theorem isHexDigit_of_parseHexNumber {bits n : Nat} (h : parseHexNumber bits s = .ok n)
    (hplain : ∀ c ∈ s, ¬ isWhite c ∧ c.toNat ≠ 0) : ∀ c ∈ s, isHexDigit c := by
  have hnumber : s.dropWhile isWhite = s := by
    cases s with
    | nil => rfl
    | cons c rest => exact List.dropWhile_cons_of_neg (hplain c List.mem_cons_self).1
  have hrest : (s.dropWhile isHexDigit).dropWhile isWhite = s.dropWhile isHexDigit := by
    have hsub := List.dropWhile_sublist (l := s) isHexDigit
    cases hdrop : s.dropWhile isHexDigit with
    | nil => rfl
    | cons c rest =>
        rw [hdrop] at hsub
        exact List.dropWhile_cons_of_neg (hplain c (hsub.subset List.mem_cons_self)).1
  simp only [parseHexNumber, hnumber, hrest] at h
  split at h
  · cases h
  · rename_i hformat
    rw [not_or, Bool.not_eq_true, List.any_eq_false] at hformat
    have hnil : s.dropWhile isHexDigit = [] := by
      cases hdrop : s.dropWhile isHexDigit with
      | nil => rfl
      | cons c rest =>
          have hmem : c ∈ s.dropWhile isHexDigit := hdrop ▸ List.mem_cons_self
          have hzero := hformat.2 c hmem
          exact absurd (by simpa using hzero)
            (hplain c ((List.dropWhile_sublist _).subset hmem)).2
    exact List.dropWhile_eq_nil_iff.mp hnil

/-- A line feed behind the digits is skipped as white space. -/
theorem parseHexNumber_lineFeed {bits : Nat} (hempty : s ≠ []) (h : ∀ c ∈ s, isHexDigit c)
    (hlength : 16 ^ s.length ≤ 2 ^ bits) :
    parseHexNumber bits (s ++ ['\n']) = .ok (hexValue s) := by
  have hwhite : (s ++ ['\n']).dropWhile isWhite = s ++ ['\n'] := by
    obtain ⟨c, rest, rfl⟩ := List.exists_cons_of_ne_nil hempty
    rw [List.cons_append, List.dropWhile_cons_of_neg]
    rw [not_isWhite_of_isHexDigit (h c List.mem_cons_self)]
    decide
  have htake : (s ++ ['\n']).takeWhile isHexDigit = s := by
    rw [List.takeWhile_append_of_pos h, List.takeWhile_cons_of_neg (by decide), List.append_nil]
  have hdrop : (s ++ ['\n']).dropWhile isHexDigit = ['\n'] := by
    rw [List.dropWhile_append_of_pos h]
    rfl
  have hvalue := hexValue_lt h
  simp only [parseHexNumber, hwhite, htake, hdrop]
  rw [if_neg, if_neg (by omega)]
  rw [not_or]
  exact ⟨hempty, by decide⟩

end digits

end Miningcore
