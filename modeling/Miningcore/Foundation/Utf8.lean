import Mathlib.Data.List.Infix
import Mathlib.Tactic.Common

/-!
# Decoding of UTF-8

Bytes that belong to no character become replacement characters, as many as there are
sequences that are begun and not ended. A byte below 128 is its own character wherever it
stands, so that texts are found and split as their bytes are.

## Implementation notes

The bytes of a character that have come are kept until the last one is there.
-/

namespace Foundation.Utf8

def replacement : Char := '\uFFFD'

/-- A character of which bytes are missing. -/
structure Pending where
  /-- How many bytes are missing behind the next one. -/
  missing : ℕ
  low : ℕ
  high : ℕ
  value : ℕ
  le_low : 128 ≤ low

/-- The character of a whole sequence. -/
def scalar (value : ℕ) : Char :=
  if 128 ≤ value ∧ value.isValidChar then Char.ofNat value else replacement

/-- What the first byte of a longer sequence begins. -/
def lead (b : ℕ) : Option Pending :=
  if 0xC2 ≤ b ∧ b ≤ 0xDF then some ⟨0, 0x80, 0xBF, b - 0xC0, le_refl _⟩
  else if b = 0xE0 then some ⟨1, 0xA0, 0xBF, 0, by omega⟩
  else if b = 0xED then some ⟨1, 0x80, 0x9F, 0xD, le_refl _⟩
  else if 0xE1 ≤ b ∧ b ≤ 0xEF then some ⟨1, 0x80, 0xBF, b - 0xE0, le_refl _⟩
  else if b = 0xF0 then some ⟨2, 0x90, 0xBF, 0, by omega⟩
  else if b = 0xF4 then some ⟨2, 0x80, 0x8F, 4, le_refl _⟩
  else if 0xF1 ≤ b ∧ b ≤ 0xF3 then some ⟨2, 0x80, 0xBF, b - 0xF0, le_refl _⟩
  else none

def start (b : UInt8) : List Char × Option Pending :=
  if b.toNat < 128 then ([Char.ofNat b.toNat], none)
  else
    match lead b.toNat with
    | some pending => ([], some pending)
    | none => ([replacement], none)

/-- What is given out if nothing more comes. -/
def flush : Option Pending → List Char
  | none => []
  | some _ => [replacement]

/-- A byte goes on with the character that is pending or begins another one. -/
def feed : Option Pending → UInt8 → List Char × Option Pending
  | none, b => start b
  | some pending, b =>
      if pending.low ≤ b.toNat ∧ b.toNat ≤ pending.high then
        let value := pending.value * 64 + (b.toNat - 128)
        match pending.missing with
        | 0 => ([scalar value], none)
        | missing + 1 => ([], some ⟨missing, 0x80, 0xBF, value, le_refl _⟩)
      else (replacement :: (start b).1, (start b).2)

def decodeFrom (pending : Option Pending) : List UInt8 → List Char
  | [] => flush pending
  | b :: bytes => (feed pending b).1 ++ decodeFrom (feed pending b).2 bytes

def decode (bytes : List UInt8) : List Char := decodeFrom none bytes

example : decode [0x7B, 0xC3, 0xA9, 0xE2, 0x82, 0x7D] = ['{', 'é', replacement, '}'] := by decide

variable {pending : Option Pending} {b : UInt8} {bytes : List UInt8}

theorem toNat_ofNat {value : ℕ} (h : value.isValidChar) : (Char.ofNat value).toNat = value := by
  rw [Char.ofNat, dif_pos h]
  rfl

theorem le_scalar (value : ℕ) : 128 ≤ (scalar value).toNat := by
  rw [scalar]
  split
  · rename_i h
    rw [toNat_ofNat h.2]
    exact h.1
  · decide

/-- A byte below 128 ends what is pending. -/
theorem feed_ascii (h : b.toNat < 128) :
    feed pending b = (flush pending ++ [Char.ofNat b.toNat], none) := by
  have hstart : start b = ([Char.ofNat b.toNat], none) := if_pos h
  cases pending with
  | none => exact hstart
  | some pending =>
      have hlow := pending.le_low
      rw [feed, if_neg (by omega), hstart]
      rfl

theorem decodeFrom_append_cons (h : b.toNat < 128) (rest : List UInt8) :
    decodeFrom pending (bytes ++ b :: rest) =
      decodeFrom pending bytes ++ Char.ofNat b.toNat :: decode rest := by
  induction bytes generalizing pending with
  | nil =>
      change (feed pending b).1 ++ decodeFrom (feed pending b).2 rest = _
      rw [feed_ascii h, List.append_assoc]
      rfl
  | cons a bytes ih => rw [List.cons_append, decodeFrom, decodeFrom, ih, List.append_assoc]

/-- Decoding starts anew behind a byte below 128. -/
theorem decode_append_cons (h : b.toNat < 128) (rest : List UInt8) :
    decode (bytes ++ b :: rest) = decode bytes ++ Char.ofNat b.toNat :: decode rest :=
  decodeFrom_append_cons h rest

theorem decode_cons (h : b.toNat < 128) (rest : List UInt8) :
    decode (b :: rest) = Char.ofNat b.toNat :: decode rest :=
  show decode ([] ++ b :: rest) = _ from decode_append_cons h rest

theorem decodeFrom_ne_nil_of_some (pending : Pending) (bytes : List UInt8) :
    decodeFrom (some pending) bytes ≠ [] := by
  induction bytes generalizing pending with
  | nil => simp [decodeFrom, flush]
  | cons b bytes ih =>
      rw [decodeFrom, feed]
      split
      · dsimp only
        split
        · simp
        · exact ih _
      · simp

theorem decode_eq_nil_iff : decode bytes = [] ↔ bytes = [] := by
  constructor
  · intro h
    cases bytes with
    | nil => rfl
    | cons b bytes =>
        rw [decode, decodeFrom, feed, start] at h
        split at h
        · simp at h
        · split at h
          · exact absurd h (decodeFrom_ne_nil_of_some _ _)
          · simp at h
  · rintro rfl
    rfl

/-- What begins with a longer sequence does not begin with a character below 128. -/
theorem le_of_decodeFrom_some {pending : Pending} {c : Char} {text : List Char}
    (h : decodeFrom (some pending) bytes = c :: text) : 128 ≤ c.toNat := by
  induction bytes generalizing pending with
  | nil =>
      rw [decodeFrom, flush, List.cons.injEq] at h
      rw [← h.1]
      decide
  | cons b bytes ih =>
      rw [decodeFrom, feed] at h
      split at h
      · dsimp only at h
        split at h
        · rw [List.singleton_append, List.cons.injEq] at h
          rw [← h.1]
          exact le_scalar _
        · exact ih h
      · rw [List.cons_append, List.cons.injEq] at h
        rw [← h.1]
        decide

/-- More bytes are no fewer characters. -/
theorem length_decodeFrom_le (bytes more : List UInt8) :
    (decodeFrom pending bytes).length ≤ (decodeFrom pending (bytes ++ more)).length := by
  induction bytes generalizing pending with
  | nil =>
      cases pending with
      | none => exact Nat.zero_le _
      | some pending => exact List.length_pos_of_ne_nil (decodeFrom_ne_nil_of_some pending more)
  | cons b bytes ih =>
      rw [List.cons_append, decodeFrom, decodeFrom, List.length_append, List.length_append]
      exact Nat.add_le_add_left ih _

/-- What lacks the last byte has another text, if that byte is below 128. -/
theorem decode_ne_of_isPrefix (h : b.toNat < 128) {fragment : List UInt8}
    (hstart : fragment <+: bytes) : decode fragment ≠ decode (bytes ++ [b]) := by
  obtain ⟨more, rfl⟩ := hstart
  intro hsame
  have hle : (decode fragment).length ≤ (decode (fragment ++ more)).length :=
    length_decodeFrom_le fragment more
  rw [hsame, decode_append_cons h, List.length_append, List.length_cons] at hle
  omega

theorem toNat_ofNat_toNat (h : b.toNat < 128) : (Char.ofNat b.toNat).toNat = b.toNat :=
  toNat_ofNat (Or.inl (by omega))

/-- The bytes of a text below 128. -/
def asciiText (word : List UInt8) : List Char := word.map fun b => Char.ofNat b.toNat

section search

variable {word : List UInt8}

/-- A text below 128 that decoded bytes begin with is there in the bytes. -/
theorem isPrefix_of_asciiText (hword : ∀ b ∈ word, b.toNat < 128)
    (h : asciiText word <+: decode bytes) : word <+: bytes := by
  induction word generalizing bytes with
  | nil => exact List.nil_prefix
  | cons a word ih =>
      rw [List.forall_mem_cons] at hword
      obtain ⟨rest, hrest⟩ := h
      rw [asciiText, List.map_cons, List.cons_append] at hrest
      cases bytes with
      | nil => cases hrest
      | cons b bytes =>
          by_cases hb : b.toNat < 128
          · rw [decode_cons hb, List.cons.injEq] at hrest
            have hsame : a = b := by
              rw [← UInt8.toNat_inj, ← toNat_ofNat_toNat hword.1, hrest.1, toNat_ofNat_toNat hb]
            rw [hsame, List.cons_prefix_cons]
            exact ⟨rfl, ih hword.2 ⟨rest, hrest.2⟩⟩
          · have hle : 128 ≤ (Char.ofNat a.toNat).toNat := by
              rw [decode, decodeFrom, feed, start, if_neg hb] at hrest
              split at hrest
              · exact le_of_decodeFrom_some hrest.symm
              · rw [List.singleton_append, List.cons.injEq] at hrest
                rw [hrest.1]
                decide
            rw [toNat_ofNat_toNat hword.1] at hle
            exact absurd hword.1 (not_lt.mpr hle)

/-- What a byte gives out is below 128 in its own place only. -/
theorem isInfix_of_asciiText (hword : ∀ b ∈ word, b.toNat < 128) (hne : word ≠ [])
    (h : asciiText word <:+: decodeFrom pending bytes) : word <:+: bytes := by
  obtain ⟨first, word', rfl⟩ := List.exists_cons_of_ne_nil hne
  have hfirst : (Char.ofNat first.toNat).toNat < 128 := by
    have hlt := hword first List.mem_cons_self
    rwa [toNat_ofNat_toNat hlt]
  -- a text that begins above is found behind the character it begins with
  have hskip {c : Char} {text : List Char} (hc : 128 ≤ c.toNat)
      (hfound : asciiText (first :: word') <:+: c :: text) :
      asciiText (first :: word') <:+: text := by
    rw [List.infix_cons_iff] at hfound
    obtain hfront | hfound := hfound
    · rw [asciiText, List.map_cons, List.cons_prefix_cons] at hfront
      rw [hfront.1] at hfirst
      exact absurd hfirst (not_lt.mpr hc)
    · exact hfound
  have hreplacement : 128 ≤ replacement.toNat := by decide
  induction bytes generalizing pending with
  | nil =>
      cases pending with
      | none => exact absurd (List.infix_nil.mp h) (by simp [asciiText])
      | some pending =>
          exact absurd (List.infix_nil.mp (hskip hreplacement h)) (by simp [asciiText])
  | cons b bytes ih =>
      -- the byte is the first of a sequence, or a character
      have hstart (hfound : asciiText (first :: word') <:+:
          (start b).1 ++ decodeFrom (start b).2 bytes) : first :: word' <:+: b :: bytes := by
        by_cases hb : b.toNat < 128
        · rw [start, if_pos hb, List.singleton_append, List.infix_cons_iff] at hfound
          obtain hfront | hfound := hfound
          · refine List.IsPrefix.isInfix (isPrefix_of_asciiText hword ?_)
            rw [decode_cons hb]
            exact hfront
          · exact (ih hfound).trans (List.infix_cons List.infix_rfl)
        · rw [start, if_neg hb] at hfound
          split at hfound
          · exact (ih hfound).trans (List.infix_cons List.infix_rfl)
          · exact (ih (hskip hreplacement hfound)).trans (List.infix_cons List.infix_rfl)
      cases pending with
      | none => exact hstart h
      | some pending =>
          rw [decodeFrom, feed] at h
          split at h
          · dsimp only at h
            split at h
            · exact (ih (hskip (le_scalar _) h)).trans (List.infix_cons List.infix_rfl)
            · exact (ih h).trans (List.infix_cons List.infix_rfl)
          · exact hstart (hskip hreplacement h)

/-- A text below 128 is found in decoded bytes if and only if its bytes are there. -/
theorem asciiText_infix_decode_iff (hword : ∀ b ∈ word, b.toNat < 128) (hne : word ≠ []) :
    asciiText word <:+: decode bytes ↔ word <:+: bytes := by
  constructor
  · exact isInfix_of_asciiText hword hne
  · rintro ⟨before, after, rfl⟩
    induction word generalizing before with
    | nil => exact absurd rfl hne
    | cons a word ih =>
        rw [List.forall_mem_cons] at hword
        rw [List.append_assoc, List.cons_append, decode_append_cons hword.1]
        have hrest : asciiText word <+: decode (word ++ after) := by
          clear ih hne
          induction word with
          | nil => exact List.nil_prefix
          | cons a' word ih' =>
              rw [List.forall_mem_cons] at hword
              rw [List.cons_append, decode_cons hword.2.1, asciiText, List.map_cons,
                List.cons_prefix_cons]
              exact ⟨rfl, ih' ⟨hword.1, hword.2.2⟩⟩
        obtain ⟨rest, hrest⟩ := hrest
        refine ⟨decode before, rest, ?_⟩
        rw [← hrest, asciiText, asciiText, List.map_cons, List.append_assoc, List.cons_append]

end search

end Foundation.Utf8
