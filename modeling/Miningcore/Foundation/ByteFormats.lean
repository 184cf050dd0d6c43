import Mathlib.Data.Nat.Notation
import Mathlib.Tactic.Common
import Mathlib.Tactic.Linarith

/-!
# Formats of bytes

A format writes values and reads them back from the front of any bytes. Formats
are put one behind the other, and lists and texts behind their lengths.
-/

namespace Foundation

universe u v

/-- A way to write the values that fit and to read them back. -/
structure ByteFormat (α : Type u) where
  write : α → List UInt8
  read : List UInt8 → Option (α × List UInt8)
  Fits : α → Prop
  read_write (a : α) (rest : List UInt8) (h : Fits a) : read (write a ++ rest) = some (a, rest)

/-- A number in so many bytes, the lowest first. -/
def bytesOf : ℕ → ℕ → List UInt8
  | 0, _ => []
  | width + 1, n => n.toUInt8 :: bytesOf width (n / 256)

def numberOf (bytes : List UInt8) : ℕ := bytes.foldr (fun byte n => byte.toNat + 256 * n) 0

theorem length_bytesOf (width n : ℕ) : (bytesOf width n).length = width := by
  induction width generalizing n with
  | zero => rfl
  | succ width ih => rw [bytesOf, List.length_cons, ih]

theorem numberOf_bytesOf {width n : ℕ} (h : n < 256 ^ width) : numberOf (bytesOf width n) = n := by
  induction width generalizing n with
  | zero =>
      rw [Nat.pow_zero] at h
      exact (Nat.lt_one_iff.mp h).symm
  | succ width ih =>
      have hquotient : n / 256 < 256 ^ width := by
        rw [pow_succ] at h
        omega
      have hbyte : n.toUInt8.toNat = n % 256 := by rw [Nat.toUInt8_eq, UInt8.toNat_ofNat']
      have hrest := ih hquotient
      rw [numberOf] at hrest
      rw [bytesOf, numberOf, List.foldr_cons, hrest, hbyte]
      omega

namespace ByteFormat

/-- So many bytes as they are. -/
def fixed (width : ℕ) : ByteFormat (List UInt8) where
  write bytes := bytes
  read bytes := if width ≤ bytes.length then some (bytes.take width, bytes.drop width) else none
  Fits bytes := bytes.length = width
  read_write bytes rest h := by simp [← h]

/-- A value in place of another. -/
def map {α : Type u} {β : Type v} (format : ByteFormat α) (decode : α → β) (encode : β → α)
    (decode_encode : ∀ b, decode (encode b) = b) : ByteFormat β where
  write b := format.write (encode b)
  read bytes := (format.read bytes).map fun result => (decode result.1, result.2)
  Fits b := format.Fits (encode b)
  read_write b rest h := by
    rw [format.read_write _ _ h, Option.map_some, decode_encode]

/-- One format behind the other. -/
def pair {α : Type u} {β : Type v} (first : ByteFormat α) (second : ByteFormat β) :
    ByteFormat (α × β) where
  write value := first.write value.1 ++ second.write value.2
  read bytes := (first.read bytes).bind fun result =>
    (second.read result.2).map fun result' => ((result.1, result'.1), result'.2)
  Fits value := first.Fits value.1 ∧ second.Fits value.2
  read_write value rest h := by
    rw [List.append_assoc, first.read_write _ _ h.1, Option.bind_some,
      second.read_write _ _ h.2, Option.map_some]

/-- A format that a flag leaves out. -/
def optional {α : Type u} (present : Bool) (format : ByteFormat α) : ByteFormat (Option α) where
  write value := value.elim [] format.write
  read bytes :=
    if present then (format.read bytes).map fun result => (some result.1, result.2)
    else some (none, bytes)
  Fits value := value.isSome = present ∧ ∀ a ∈ value, format.Fits a
  read_write value rest h := by
    cases value with
    | none => simp [← h.1]
    | some a => simp [← h.1, format.read_write a rest (h.2 a rfl)]

/-- A number in so many bytes. -/
def number (width : ℕ) : ByteFormat ℕ where
  write := bytesOf width
  read bytes := ((fixed width).read bytes).map fun result => (numberOf result.1, result.2)
  Fits n := n < 256 ^ width
  read_write n rest h := by
    have hread := (fixed width).read_write (bytesOf width n) rest (length_bytesOf width n)
    rw [fixed] at hread ⊢
    rw [hread, Option.map_some, numberOf_bytesOf h]

@[simp] theorem fits_number_iff {width n : ℕ} : (number width).Fits n ↔ n < 256 ^ width := Iff.rfl

/-- A number that needs the wider form it is in. -/
def readWide (width least : ℕ) (bytes : List UInt8) : Option (ℕ × List UInt8) :=
  ((number width).read bytes).filter fun result => least ≤ result.1

theorem readWide_bytesOf {width least n : ℕ} (hleast : least ≤ n) (hn : n < 256 ^ width)
    (rest : List UInt8) : readWide width least (bytesOf width n ++ rest) = some (n, rest) := by
  have hread := (number width).read_write n rest hn
  rw [number] at hread
  rw [readWide, number, hread, Option.filter_some, if_pos (decide_eq_true hleast)]

/-- A number in one byte, or in two, four or eight behind a byte that tells so. -/
def writeCompactSize (n : ℕ) : List UInt8 :=
  if n < 0xfd then bytesOf 1 n
  else if n ≤ 0xffff then 0xfd :: bytesOf 2 n
  else if n ≤ 0xffffffff then 0xfe :: bytesOf 4 n
  else 0xff :: bytesOf 8 n

def readCompactSize : List UInt8 → Option (ℕ × List UInt8)
  | [] => none
  | first :: rest =>
      if first = 0xfd then readWide 2 0xfd rest
      else if first = 0xfe then readWide 4 0x10000 rest
      else if first = 0xff then readWide 8 0x100000000 rest
      else some (first.toNat, rest)

theorem readCompactSize_cons_of_lt {first : UInt8} (h : first.toNat < 0xfd) (rest : List UInt8) :
    readCompactSize (first :: rest) = some (first.toNat, rest) := by
  have hother (marker : UInt8) (hmarker : 0xfd ≤ marker.toNat) : first ≠ marker := by
    rintro rfl
    omega
  rw [readCompactSize, if_neg (hother _ (by decide)), if_neg (hother _ (by decide)),
    if_neg (hother _ (by decide))]

theorem readCompactSize_writeCompactSize (n : ℕ) (rest : List UInt8) (h : n < 2 ^ 64) :
    readCompactSize (writeCompactSize n ++ rest) = some (n, rest) := by
  rw [writeCompactSize]
  split
  · rename_i hsmall
    have hbyte : n.toUInt8.toNat = n := by
      rw [Nat.toUInt8_eq, UInt8.toNat_ofNat', Nat.mod_eq_of_lt (by omega)]
    have hread := readCompactSize_cons_of_lt (hbyte.trans_lt hsmall) rest
    rw [hbyte] at hread
    exact hread
  · rename_i hsmall
    split
    · rename_i htwo
      rw [List.cons_append, readCompactSize, if_pos rfl,
        readWide_bytesOf (not_lt.mp hsmall) (by omega)]
    · rename_i htwo
      split
      · rename_i hfour
        rw [List.cons_append, readCompactSize, if_neg (by decide), if_pos rfl,
          readWide_bytesOf (not_le.mp htwo) (by omega)]
      · rename_i hfour
        rw [List.cons_append, readCompactSize, if_neg (by decide), if_neg (by decide), if_pos rfl,
          readWide_bytesOf (not_le.mp hfour) h]

def compactSize : ByteFormat ℕ where
  write := writeCompactSize
  read := readCompactSize
  Fits n := n < 2 ^ 64
  read_write := readCompactSize_writeCompactSize

/-- Bytes behind their number. -/
def sized : ByteFormat (List UInt8) where
  write bytes := compactSize.write bytes.length ++ bytes
  read bytes := (compactSize.read bytes).bind fun result => (fixed result.1).read result.2
  Fits bytes := bytes.length < 2 ^ 64
  read_write bytes rest h := by
    rw [List.append_assoc, compactSize.read_write _ _ h, Option.bind_some]
    exact (fixed bytes.length).read_write bytes rest rfl

theorem length_le_write_sized (bytes : List UInt8) : bytes.length ≤ (sized.write bytes).length := by
  rw [sized, List.length_append]
  exact Nat.le_add_left _ _

section lists

variable {α : Type u} (format : ByteFormat α)

/-- So many values. -/
def readMany : ℕ → List UInt8 → Option (List α × List UInt8)
  | 0, bytes => some ([], bytes)
  | count + 1, bytes => (format.read bytes).bind fun result =>
      (readMany count result.2).map fun result' => (result.1 :: result'.1, result'.2)

theorem readMany_write (values : List α) (rest : List UInt8)
    (h : ∀ a ∈ values, format.Fits a) :
    readMany format values.length ((values.map format.write).flatten ++ rest) =
      some (values, rest) := by
  induction values with
  | nil => rfl
  | cons a values ih =>
      have hrest := ih fun b hb => h b (List.mem_cons_of_mem a hb)
      rw [List.length_cons, readMany, List.map_cons, List.flatten_cons, List.append_assoc,
        format.read_write _ _ (h a List.mem_cons_self), Option.bind_some, hrest, Option.map_some]

/-- A list behind its length. -/
def counted : ByteFormat (List α) where
  write values := compactSize.write values.length ++ (values.map format.write).flatten
  read bytes := (compactSize.read bytes).bind fun result => readMany format result.1 result.2
  Fits values := values.length < 2 ^ 64 ∧ ∀ a ∈ values, format.Fits a
  read_write values rest h := by
    rw [List.append_assoc, compactSize.read_write _ _ h.1, Option.bind_some]
    exact readMany_write format values rest h.2

/-- A value and a list behind the number of all of them. -/
def countedFrom {β : Type v} (first : ByteFormat β) : ByteFormat (β × List α) where
  write value := compactSize.write (value.2.length + 1) ++
    (first.write value.1 ++ (value.2.map format.write).flatten)
  read bytes := (compactSize.read bytes).bind fun result =>
    if result.1 = 0 then none
    else (first.read result.2).bind fun result' =>
      (readMany format (result.1 - 1) result'.2).map fun result'' =>
        ((result'.1, result''.1), result''.2)
  Fits value := value.2.length + 1 < 2 ^ 64 ∧ first.Fits value.1 ∧ ∀ a ∈ value.2, format.Fits a
  read_write value rest h := by
    rw [List.append_assoc, List.append_assoc, compactSize.read_write _ _ h.1, Option.bind_some,
      if_neg (Nat.succ_ne_zero _), first.read_write _ _ h.2.1, Option.bind_some,
      Nat.add_sub_cancel, readMany_write format _ _ h.2.2, Option.map_some]

variable {format}

theorem length_write_le_counted {a : α} {values : List α} (h : a ∈ values) :
    (format.write a).length ≤ (format.counted.write values).length := by
  have hsub := List.sublist_flatten_of_mem (List.mem_map_of_mem (f := format.write) h)
  rw [counted, List.length_append]
  exact hsub.length_le.trans (Nat.le_add_left _ _)

/-- There are no more values than bytes if none is written as nothing. -/
theorem length_le_counted (hpos : ∀ a, 0 < (format.write a).length) (values : List α) :
    values.length ≤ (format.counted.write values).length := by
  have hflatten : values.length ≤ (values.map format.write).flatten.length := by
    induction values with
    | nil => simp
    | cons a values ih =>
        have ha := hpos a
        rw [List.length_cons, List.map_cons, List.flatten_cons, List.length_append]
        omega
  rw [counted, List.length_append]
  exact hflatten.trans (Nat.le_add_left _ _)

end lists

/-! ### Reading behind a known front -/

section fronts

variable {α : Type u} {β : Type v} {bytes rest : List UInt8}

theorem read_map_eq_some {format : ByteFormat α} {decode : α → β} {encode : β → α}
    {decode_encode : ∀ b, decode (encode b) = b} {b : β} :
    (format.map decode encode decode_encode).read bytes = some (b, rest) ↔
      ∃ a, format.read bytes = some (a, rest) ∧ decode a = b := by
  simp [map, Option.map_eq_some_iff]

theorem read_pair_eq_some {first : ByteFormat α} {second : ByteFormat β} {value : α × β} :
    (first.pair second).read bytes = some (value, rest) ↔
      ∃ mid, first.read bytes = some (value.1, mid) ∧ second.read mid = some (value.2, rest) := by
  simp only [pair, Option.bind_eq_some_iff, Option.map_eq_some_iff, Prod.mk.injEq, Prod.exists]
  constructor
  · rintro ⟨a, mid, hfirst, b, _, hsecond, rfl, rfl⟩
    exact ⟨mid, hfirst, hsecond⟩
  · rintro ⟨mid, hfirst, hsecond⟩
    exact ⟨_, mid, hfirst, _, _, hsecond, rfl, rfl⟩

theorem read_pair_write {first : ByteFormat α} {second : ByteFormat β} {a : α}
    (h : first.Fits a) {value : α × β} :
    (first.pair second).read (first.write a ++ bytes) = some (value, rest) ↔
      value.1 = a ∧ second.read bytes = some (value.2, rest) := by
  rw [read_pair_eq_some, first.read_write a bytes h]
  constructor
  · rintro ⟨mid, hfirst, hsecond⟩
    cases hfirst
    exact ⟨rfl, hsecond⟩
  · rintro ⟨hfirst, hsecond⟩
    exact ⟨bytes, by rw [hfirst], hsecond⟩

/-- A list of one value. -/
theorem read_counted_one {format : ByteFormat α} {values : List α} :
    format.counted.read (compactSize.write 1 ++ bytes) = some (values, rest) ↔
      ∃ a, values = [a] ∧ format.read bytes = some (a, rest) := by
  have hread := compactSize.read_write 1 bytes (show 1 < 2 ^ 64 by decide)
  simp only [counted, hread, Option.bind_some, readMany, Option.map_some, Option.bind_eq_some_iff,
    Option.some.injEq, Prod.mk.injEq, Prod.exists]
  constructor
  · rintro ⟨a, _, hvalue, rfl, rfl⟩
    exact ⟨a, rfl, hvalue⟩
  · rintro ⟨a, rfl, hvalue⟩
    exact ⟨a, _, hvalue, rfl, rfl⟩

/-- The bytes behind a number are as many. -/
theorem length_of_read_sized {n : ℕ} (h : n < 2 ^ 64) {content : List UInt8}
    (hread : sized.read (compactSize.write n ++ bytes) = some (content, rest)) :
    content.length = n := by
  have hlength := compactSize.read_write n bytes h
  simp only [sized, hlength, Option.bind_some, fixed] at hread
  split at hread
  · rename_i hle
    cases hread
    rw [List.length_take, min_eq_left hle]
  · cases hread

end fronts

/-! ### Formats that read only what they write -/

section canonical

variable {α : Type u} {β : Type v}

/-- A value is read from nothing but its own bytes. -/
def IsCanonical (format : ByteFormat α) : Prop :=
  ∀ ⦃bytes a rest⦄, format.read bytes = some (a, rest) →
    format.Fits a ∧ bytes = format.write a ++ rest

theorem isCanonical_fixed (width : ℕ) : (fixed width).IsCanonical := by
  intro bytes a rest h
  simp only [fixed] at h
  split at h
  · rename_i hle
    cases h
    exact ⟨by simp [fixed, hle], (List.take_append_drop width bytes).symm⟩
  · cases h

theorem IsCanonical.map {format : ByteFormat α} (hformat : format.IsCanonical) {decode : α → β}
    {encode : β → α} {decode_encode : ∀ b, decode (encode b) = b}
    (encode_decode : ∀ a, encode (decode a) = a) :
    (format.map decode encode decode_encode).IsCanonical := by
  intro bytes b rest h
  obtain ⟨a, hread, rfl⟩ := read_map_eq_some.mp h
  obtain ⟨hfits, hbytes⟩ := hformat hread
  have hencode := encode_decode a
  exact ⟨by rwa [← hencode] at hfits, by rwa [← hencode] at hbytes⟩

theorem IsCanonical.pair {first : ByteFormat α} {second : ByteFormat β}
    (hfirst : first.IsCanonical) (hsecond : second.IsCanonical) :
    (first.pair second).IsCanonical := by
  intro bytes value rest h
  obtain ⟨mid, hread, hread'⟩ := read_pair_eq_some.mp h
  obtain ⟨hfits, rfl⟩ := hfirst hread
  obtain ⟨hfits', rfl⟩ := hsecond hread'
  exact ⟨⟨hfits, hfits'⟩, (List.append_assoc _ _ _).symm⟩

theorem IsCanonical.optional {format : ByteFormat α} (hformat : format.IsCanonical)
    (present : Bool) : (optional present format).IsCanonical := by
  intro bytes value rest h
  cases present with
  | false =>
      cases h
      exact ⟨⟨rfl, fun a ha => by cases ha⟩, rfl⟩
  | true =>
      obtain ⟨⟨a, rest'⟩, hread, hvalue⟩ := Option.map_eq_some_iff.mp h
      cases hvalue
      obtain ⟨hfits, hbytes⟩ := hformat hread
      refine ⟨⟨rfl, fun b hb => ?_⟩, hbytes⟩
      cases hb
      exact hfits

theorem numberOf_lt (bytes : List UInt8) : numberOf bytes < 256 ^ bytes.length := by
  induction bytes with
  | nil => exact Nat.one_pos
  | cons byte bytes ih =>
      have hbyte := byte.toNat_lt
      rw [numberOf] at ih
      rw [numberOf, List.foldr_cons, List.length_cons, pow_succ]
      omega

theorem bytesOf_numberOf (bytes : List UInt8) : bytesOf bytes.length (numberOf bytes) = bytes := by
  induction bytes with
  | nil => rfl
  | cons byte bytes ih =>
      have hbyte := byte.toNat_lt
      have hnumber : numberOf (byte :: bytes) = byte.toNat + 256 * numberOf bytes := rfl
      have hquotient : numberOf (byte :: bytes) / 256 = numberOf bytes := by omega
      have hfirst : (numberOf (byte :: bytes)).toUInt8 = byte := by
        rw [← UInt8.toNat_inj, Nat.toUInt8_eq, UInt8.toNat_ofNat']
        omega
      rw [List.length_cons, bytesOf, hquotient, ih, hfirst]

theorem isCanonical_number (width : ℕ) : (number width).IsCanonical := by
  intro bytes n rest h
  obtain ⟨⟨front, rest'⟩, hread, hvalue⟩ := Option.map_eq_some_iff.mp h
  cases hvalue
  obtain ⟨hlength, hbytes⟩ := isCanonical_fixed width hread
  have hwidth : front.length = width := hlength
  subst hwidth
  refine ⟨numberOf_lt front, ?_⟩
  change bytes = bytesOf front.length (numberOf front) ++ rest'
  rw [bytesOf_numberOf]
  exact hbytes

theorem of_readWide {width least n : ℕ} {bytes rest : List UInt8}
    (h : readWide width least bytes = some (n, rest)) :
    least ≤ n ∧ n < 256 ^ width ∧ bytes = bytesOf width n ++ rest := by
  obtain ⟨hread, hleast⟩ := Option.filter_eq_some_iff.mp h
  obtain ⟨hfits, hbytes⟩ := isCanonical_number width hread
  exact ⟨of_decide_eq_true hleast, hfits, hbytes⟩

theorem isCanonical_compactSize : compactSize.IsCanonical := by
  intro bytes n rest h
  change readCompactSize bytes = some (n, rest) at h
  change n < 2 ^ 64 ∧ bytes = writeCompactSize n ++ rest
  cases bytes with
  | nil => cases h
  | cons first bytes =>
      rw [readCompactSize] at h
      split at h
      · rename_i hfirst
        obtain ⟨hleast, hlt, hbytes⟩ := of_readWide h
        rw [writeCompactSize, if_neg (by omega), if_pos (by omega), hfirst, hbytes]
        exact ⟨by omega, rfl⟩
      · split at h
        · rename_i hfirst
          obtain ⟨hleast, hlt, hbytes⟩ := of_readWide h
          rw [writeCompactSize, if_neg (by omega), if_neg (by omega), if_pos (by omega), hfirst,
            hbytes]
          exact ⟨by omega, rfl⟩
        · split at h
          · rename_i hfirst
            obtain ⟨hleast, hlt, hbytes⟩ := of_readWide h
            rw [writeCompactSize, if_neg (by omega), if_neg (by omega), if_neg (by omega), hfirst,
              hbytes]
            exact ⟨by omega, rfl⟩
          · rename_i hfd hfe hff
            cases h
            have hbyte := first.toNat_lt
            have hsmall : first.toNat < 0xfd := by
              rw [← UInt8.toNat_inj] at hfd hfe hff
              simp only [UInt8.reduceToNat] at hfd hfe hff
              omega
            have hfirst : first.toNat.toUInt8 = first := UInt8.ofNat_toNat
            rw [writeCompactSize, if_pos hsmall, bytesOf, bytesOf, hfirst]
            exact ⟨by omega, rfl⟩

theorem isCanonical_sized : sized.IsCanonical := by
  intro bytes content rest h
  obtain ⟨⟨n, mid⟩, hread, hcontent⟩ := Option.bind_eq_some_iff.mp h
  obtain ⟨hfits, hbytes⟩ := isCanonical_compactSize hread
  obtain ⟨hlength, hmid⟩ := isCanonical_fixed n hcontent
  have hn : content.length = n := hlength
  subst hn
  refine ⟨hfits, ?_⟩
  change mid = content ++ rest at hmid
  rw [hbytes, sized, List.append_assoc, hmid]

theorem of_readMany {format : ByteFormat α} (hformat : format.IsCanonical) {count : ℕ}
    {bytes rest : List UInt8} {values : List α}
    (h : readMany format count bytes = some (values, rest)) :
    values.length = count ∧ (∀ a ∈ values, format.Fits a) ∧
      bytes = (values.map format.write).flatten ++ rest := by
  induction count generalizing bytes values with
  | zero =>
      cases h
      exact ⟨rfl, List.forall_mem_nil _, rfl⟩
  | succ count ih =>
      obtain ⟨⟨a, mid⟩, hread, hrest⟩ := Option.bind_eq_some_iff.mp h
      obtain ⟨⟨values', rest'⟩, hmany, hvalues⟩ := Option.map_eq_some_iff.mp hrest
      cases hvalues
      obtain ⟨hfits, rfl⟩ := hformat hread
      obtain ⟨rfl, hall, hmid⟩ := ih hmany
      change mid = _ at hmid
      refine ⟨rfl, List.forall_mem_cons.mpr ⟨hfits, hall⟩, ?_⟩
      rw [List.map_cons, List.flatten_cons, List.append_assoc, ← hmid]

theorem IsCanonical.counted {format : ByteFormat α} (hformat : format.IsCanonical) :
    (counted format).IsCanonical := by
  intro bytes values rest h
  obtain ⟨⟨count, mid⟩, hread, hmany⟩ := Option.bind_eq_some_iff.mp h
  obtain ⟨hfits, hbytes⟩ := isCanonical_compactSize hread
  obtain ⟨rfl, hall, hmid⟩ := of_readMany hformat hmany
  change mid = _ at hmid
  refine ⟨⟨hfits, hall⟩, ?_⟩
  rw [hbytes, hmid, ByteFormat.counted, List.append_assoc]

end canonical

end ByteFormat

end Foundation
