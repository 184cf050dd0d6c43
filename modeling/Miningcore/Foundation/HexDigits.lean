import Mathlib.Data.List.Induction
import Mathlib.Tactic.IntervalCases
import Mathlib.Tactic.Ring

/-!
# Hexadecimal digits

A digit may be written in either case. Digits of one length have a value of
their own up to the case; leading zeros are what gives a value several lengths.
-/

namespace Foundation

def hexDigit? (c : Char) : Option Nat :=
  if 48 ≤ c.toNat ∧ c.toNat ≤ 57 then some (c.toNat - 48)
  else if 97 ≤ c.toNat ∧ c.toNat ≤ 102 then some (c.toNat - 87)
  else if 65 ≤ c.toNat ∧ c.toNat ≤ 70 then some (c.toNat - 55)
  else none

def isHexDigit (c : Char) : Bool := (hexDigit? c).isSome

/-- The lower case digit. -/
def hexChar (d : Nat) : Char :=
  if d < 10 then Char.ofNat (48 + d) else Char.ofNat (87 + d)

/-- A text up to the case of its letters. -/
def ignoringCase (s : List Char) : List Char := s.map Char.toLower

def hexValue (s : List Char) : Nat :=
  s.foldl (fun value c => 16 * value + (hexDigit? c).getD 0) 0

instance instDecidableMemTexts (text : List Char) (texts : List (List Char)) :
    Decidable (text ∈ texts) :=
  inferInstance

instance instDecidableMemEntries (entry : ℕ × List Char) (entries : List (ℕ × List Char)) :
    Decidable (entry ∈ entries) :=
  inferInstance

/-- The lower case text of a width. -/
def hexText : Nat → Nat → List Char
  | 0, _ => []
  | width + 1, n => hexText width (n / 16) ++ [hexChar (n % 16)]

theorem hexDigit?_hexChar {d : Nat} (h : d < 16) : hexDigit? (hexChar d) = some d := by
  interval_cases d <;> decide

theorem hexDigit?_lt {c : Char} {d : Nat} (h : hexDigit? c = some d) : d < 16 := by
  rw [hexDigit?] at h
  split at h
  · cases h
    omega
  · split at h
    · cases h
      omega
    · split at h
      · cases h
        omega
      · cases h

theorem hexDigit_bounds {c : Char} {d : Nat} (h : hexDigit? c = some d) :
    (48 ≤ c.toNat ∧ c.toNat ≤ 57) ∨ (97 ≤ c.toNat ∧ c.toNat ≤ 102) ∨
      (65 ≤ c.toNat ∧ c.toNat ≤ 70) := by
  rw [hexDigit?] at h
  split at h
  · exact Or.inl ‹_›
  · split at h
    · exact Or.inr (Or.inl ‹_›)
    · split at h
      · exact Or.inr (Or.inr ‹_›)
      · cases h

theorem toLower_eq_hexChar {c : Char} {d : Nat} (h : hexDigit? c = some d) :
    c.toLower = hexChar d := by
  have hbounds := hexDigit_bounds h
  have hchar : Char.ofNat c.toNat = c := Char.ofNat_toNat c
  generalize c.toNat = n at hbounds hchar
  subst hchar
  obtain ⟨hlower, hupper⟩ | ⟨hlower, hupper⟩ | ⟨hlower, hupper⟩ := hbounds <;>
    interval_cases n <;> cases h <;> rfl

section text

variable {s t : List Char}

@[simp] theorem length_ignoringCase (s : List Char) : (ignoringCase s).length = s.length :=
  List.length_map _

theorem ignoringCase_append (s t : List Char) :
    ignoringCase (s ++ t) = ignoringCase s ++ ignoringCase t := List.map_append

@[simp] theorem hexValue_nil : hexValue [] = 0 := rfl

theorem hexValue_concat (s : List Char) (c : Char) :
    hexValue (s ++ [c]) = 16 * hexValue s + (hexDigit? c).getD 0 := by
  rw [hexValue, List.foldl_append, List.foldl_cons, List.foldl_nil, hexValue]

theorem length_hexText (width n : Nat) : (hexText width n).length = width := by
  induction width generalizing n with
  | zero => rfl
  | succ width ih => rw [hexText, List.length_append, ih, List.length_singleton]

theorem isHexDigit_hexText (width n : Nat) : ∀ c ∈ hexText width n, isHexDigit c := by
  induction width generalizing n with
  | zero => simp [hexText]
  | succ width ih =>
      intro c hmem
      rw [hexText, List.mem_append, List.mem_singleton] at hmem
      obtain hinit | rfl := hmem
      · exact ih _ c hinit
      · rw [isHexDigit, hexDigit?_hexChar (Nat.mod_lt n (by omega))]
        rfl

theorem hexValue_hexText (width n : Nat) (h : n < 16 ^ width) :
    hexValue (hexText width n) = n := by
  induction width generalizing n with
  | zero =>
      have : n = 0 := by simpa using h
      rw [this]
      rfl
  | succ width ih =>
      have hquotient : n / 16 < 16 ^ width := by
        rw [pow_succ] at h
        omega
      rw [hexText, hexValue_concat, ih _ hquotient, hexDigit?_hexChar (Nat.mod_lt n (by omega)),
        Option.getD_some]
      omega

/-- The text of the value in the length of the digits. -/
theorem hexText_hexValue (h : ∀ c ∈ s, isHexDigit c) :
    hexText s.length (hexValue s) = ignoringCase s := by
  induction s using List.reverseRecOn with
  | nil => rfl
  | append_singleton s c ih =>
      obtain ⟨d, hd⟩ := Option.isSome_iff_exists.mp (h c (by simp))
      have hlt := hexDigit?_lt hd
      have hquotient : (16 * hexValue s + d) / 16 = hexValue s := by omega
      have hremainder : (16 * hexValue s + d) % 16 = d := by omega
      rw [List.length_append, List.length_singleton, hexText, hexValue_concat, hd,
        Option.getD_some, hquotient, hremainder, ih fun c' hc' => h c' (by simp [hc'])]
      rw [ignoringCase, ignoringCase, List.map_append, List.map_singleton, toLower_eq_hexChar hd]

theorem ignoringCase_hexText (width n : Nat) :
    ignoringCase (hexText width n) = hexText width n := by
  induction width generalizing n with
  | zero => rfl
  | succ width ih =>
      have hdigit := hexDigit?_hexChar (Nat.mod_lt n (show 0 < 16 by omega))
      have hinit := ih (n / 16)
      rw [ignoringCase] at hinit ⊢
      rw [hexText, List.map_append, hinit, List.map_singleton, toLower_eq_hexChar hdigit]

theorem hexValue_lt (h : ∀ c ∈ s, isHexDigit c) : hexValue s < 16 ^ s.length := by
  induction s using List.reverseRecOn with
  | nil => simp
  | append_singleton s c ih =>
      obtain ⟨d, hd⟩ := Option.isSome_iff_exists.mp (h c (by simp))
      have hlt := hexDigit?_lt hd
      have hvalue := ih fun c' hc' => h c' (by simp [hc'])
      rw [hexValue_concat, hd, Option.getD_some, List.length_append, List.length_singleton,
        pow_succ]
      omega

theorem hexValue_append (s t : List Char) :
    hexValue (s ++ t) = hexValue s * 16 ^ t.length + hexValue t := by
  induction t using List.reverseRecOn with
  | nil => simp
  | append_singleton t c ih =>
      rw [← List.append_assoc, hexValue_concat, hexValue_concat, ih, List.length_append,
        List.length_singleton, pow_succ]
      ring

theorem hexValue_replicate_zero (count : Nat) : hexValue (List.replicate count '0') = 0 := by
  induction count with
  | zero => rfl
  | succ count ih =>
      rw [List.replicate_succ', hexValue_concat, ih]
      rfl

theorem hexValue_ignoringCase (h : ∀ c ∈ s, isHexDigit c) :
    hexValue (ignoringCase s) = hexValue s := by
  rw [← hexText_hexValue h, hexValue_hexText _ _ (hexValue_lt h)]

/-- Digits are the text of a number when they are as many and have its value. -/
theorem hexText_eq_iff {width n : Nat} (hn : n < 16 ^ width) (h : ∀ c ∈ s, isHexDigit c) :
    hexText width n = ignoringCase s ↔ s.length = width ∧ hexValue s = n := by
  constructor
  · intro htext
    refine ⟨?_, ?_⟩
    · rw [← length_ignoringCase, ← htext, length_hexText]
    · rw [← hexValue_ignoringCase h, ← htext, hexValue_hexText width n hn]
  · rintro ⟨rfl, rfl⟩
    exact hexText_hexValue h

/-- Digits of one length are told apart by their value, up to the case. -/
theorem ignoringCase_eq_of_hexValue_eq (hs : ∀ c ∈ s, isHexDigit c) (ht : ∀ c ∈ t, isHexDigit c)
    (hlength : s.length = t.length) (hvalue : hexValue s = hexValue t) :
    ignoringCase s = ignoringCase t := by
  rw [← hexText_hexValue hs, ← hexText_hexValue ht, hlength, hvalue]

theorem toLower_eq_self {c : Char} (h : ¬(65 ≤ c.toNat ∧ c.toNat ≤ 90)) : c.toLower = c := by
  apply dif_neg
  exact fun hletter => h ⟨UInt32.le_iff_toNat_le.mp hletter.1,
    UInt32.le_iff_toNat_le.mp hletter.2⟩

/-- What holds of a lower case holds of the character, if it does for the capital letters. -/
theorem of_toLower {P : Char → Prop} {c : Char}
    (hletters : ∀ n, 65 ≤ n → n ≤ 90 → P (Char.ofNat n).toLower → P (Char.ofNat n))
    (h : P c.toLower) : P c := by
  by_cases hupper : 65 ≤ c.toNat ∧ c.toNat ≤ 90
  · have hletter := hletters c.toNat hupper.1 hupper.2
    rw [Char.ofNat_toNat] at hletter
    exact hletter h
  · rwa [toLower_eq_self hupper] at h

/-- Only a digit becomes a digit in lower case. -/
theorem isHexDigit_of_toLower {c : Char} (h : isHexDigit c.toLower) : isHexDigit c := by
  apply @of_toLower (fun c => isHexDigit c) c _ h
  intro n hlow hhigh
  interval_cases n <;> decide

theorem isHexDigit_of_ignoringCase_eq (ht : ∀ c ∈ t, isHexDigit c)
    (h : ignoringCase s = ignoringCase t) : ∀ c ∈ s, isHexDigit c := by
  intro c hc
  have hmem : c.toLower ∈ ignoringCase t := by
    rw [← h]
    exact List.mem_map_of_mem hc
  obtain ⟨c', hc', heq⟩ := List.mem_map.mp hmem
  obtain ⟨d, hd⟩ := Option.isSome_iff_exists.mp (ht c' hc')
  apply isHexDigit_of_toLower
  rw [← heq, toLower_eq_hexChar hd, isHexDigit, hexDigit?_hexChar (hexDigit?_lt hd)]
  rfl

theorem length_eq_of_ignoringCase_eq (h : ignoringCase s = ignoringCase t) :
    s.length = t.length := by
  rw [← length_ignoringCase s, h, length_ignoringCase]

end text

attribute [irreducible] hexText

end Foundation
