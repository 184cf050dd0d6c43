import Mathlib.Data.List.Basic
import Miningcore.Foundation.BitGroups
import Mathlib.Data.List.Induction

/-!
# Kaspa addresses

An address is a prefix, a colon, and a version and a payload in groups of five
bits, each written as one character, with a checksum over everything before it.

## Implementation notes

A string is a list of characters, and case is that of the invariant culture. A
number that the source keeps in a `long` never leaves its 40 lowest bits.
-/

namespace Miningcore.Kaspa

def charset : List Char := "qpzry9x8gf2tvdw0s3jn54khce6mua7l".toList

def checksumLength : ℕ := 8

structure ConversionType where
  fromBits : ℕ
  toBits : ℕ
  pad : Bool

def fiveToEightBits : ConversionType := ⟨5, 8, false⟩

def eightToFiveBits : ConversionType := ⟨8, 5, true⟩

def generator : List ℕ := [0x98f2bc8e61, 0x79b76d99e2, 0xf33e5fb3c4, 0xae2eabe2a8, 0x1e4f43e470]

inductive Bech32Exception where
  /-- Invalid bech32 string length. -/
  | length (length : ℕ)
  /-- Invalid character in string. -/
  | character (c : Char)
  /-- String not all lowercase or all uppercase. -/
  | mixedCase
  /-- Invalid index of a colon. -/
  | colonIndex
  /-- Invalid character not part of charset. -/
  | charset (c : Char)
  /-- Checksum failed. -/
  | checksum (expected got : List Char)
  | indexOutOfRange
deriving DecidableEq

section convertBits

/-- The complete groups, and the bits of the next one. -/
structure Regrouping where
  regrouped : List UInt8 := []
  nextByte : UInt8 := 0
  filledBits : ℕ := 0

/-- Moves the highest bits of a byte into groups. Each turn moves one bit at least, so that there
are no more turns than bits. -/
def moveBits (toBits : ℕ) : ℕ → Regrouping → UInt8 → ℕ → Regrouping
  | 0, state, _, _ => state
  | turns + 1, state, shiftedB, remainingFromBits =>
      if remainingFromBits = 0 then state
      else
        let remainingToBits := toBits - state.filledBits
        let toExtract :=
          if remainingFromBits < remainingToBits then remainingFromBits else remainingToBits
        let nextByte :=
          ((state.nextByte.toNat <<< toExtract) ||| (shiftedB.toNat >>> (8 - toExtract))).toUInt8
        let filledBits := state.filledBits + toExtract
        let state' : Regrouping :=
          if filledBits = toBits then { regrouped := state.regrouped ++ [nextByte] }
          else { state with nextByte, filledBits }
        moveBits toBits turns state' (shiftedB.toNat <<< toExtract).toUInt8
          (remainingFromBits - toExtract)

/-- All bytes are moved. -/
def regroup (conversionType : ConversionType) (data : List UInt8) : Regrouping :=
  data.foldl (fun state b =>
    moveBits conversionType.toBits conversionType.fromBits state
      (b.toNat <<< (8 - conversionType.fromBits)).toUInt8 conversionType.fromBits) {}

def convertBits (data : List UInt8) (conversionType : ConversionType) : List UInt8 :=
  let state := regroup conversionType data
  if conversionType.pad ∧ 0 < state.filledBits then
    state.regrouped ++
      [(state.nextByte.toNat <<< (conversionType.toBits - state.filledBits)).toUInt8]
  else state.regrouped

end convertBits

section checksum

def polyModStep (checksum value : ℕ) : ℕ :=
  let topBits := checksum >>> 35
  generator.zipIdx.foldl (fun checksum entry =>
      if (topBits >>> entry.2) &&& 1 = 1 then checksum ^^^ entry.1 else checksum)
    (((checksum &&& 0x07ffffffff) <<< 5) ^^^ value)

def polyMod (values : List ℕ) : ℕ := values.foldl polyModStep 1 ^^^ 1

def prefixToUint5Array (prefixString : List Char) : List ℕ :=
  prefixString.map fun c => c.toNat &&& 31

def payloadToInts (payload : List UInt8) : List ℕ := payload.map UInt8.toNat

def calculateChecksum (prefixString : List Char) (payload : List UInt8) : List UInt8 :=
  let polyModResult := polyMod (prefixToUint5Array prefixString ++ [0] ++ payloadToInts payload ++
    List.replicate checksumLength 0)
  (List.range checksumLength).map fun i =>
    ((polyModResult >>> (5 * (checksumLength - 1 - i))) &&& 31).toUInt8

def verifyChecksum (prefixString : List Char) (payload : List UInt8) : Bool :=
  polyMod (prefixToUint5Array prefixString ++ [0] ++ payloadToInts payload) = 0

end checksum

section encode

/-- Empty when a byte has no character. -/
def encodeToBase32 (data : List UInt8) : List Char :=
  (data.mapM fun b => charset[b.toNat]?).getD []

def encodeInternal (prefixString : List Char) (data : List UInt8) : List Char :=
  prefixString ++ ':' :: encodeToBase32 (data ++ calculateChecksum prefixString data)

def encode (prefixString : List Char) (payload : List UInt8) (version : UInt8) : List Char :=
  encodeInternal prefixString (convertBits (version :: payload) eightToFiveBits)

end encode

section decode

def decodeFromBase32 (base32String : List Char) : Except Bech32Exception (List UInt8) :=
  base32String.mapM fun c =>
    match charset.idxOf? c with
    | none => .error (.charset c)
    | some index => .ok index.toUInt8

def lastIndexOf (c : Char) : List Char → Option ℕ
  | [] => none
  | first :: rest =>
      match lastIndexOf c rest with
      | some index => some (index + 1)
      | none => if first = c then some 0 else none

/-- Characters that are not printed. -/
def isInvalid (c : Char) : Bool := c.toNat < 33 || 126 < c.toNat

/-- The part of decoding after the case is settled. -/
def decodeLower (encoded : List Char) : Except Bech32Exception (List Char × List UInt8) :=
  match lastIndexOf ':' encoded with
  | none => .error .colonIndex
  | some colonIndex =>
      if colonIndex < 1 ∨ encoded.length < colonIndex + checksumLength + 1 then .error .colonIndex
      else
        let prefixString := encoded.take colonIndex
        match decodeFromBase32 (encoded.drop (colonIndex + 1)) with
        | .error exception => .error exception
        | .ok decoded =>
            let data := decoded.take (decoded.length - checksumLength)
            if verifyChecksum prefixString decoded then .ok (prefixString, data)
            else .error (.checksum (encodeToBase32 (calculateChecksum prefixString data))
              (encoded.drop (encoded.length - checksumLength)))

def decodeInternal (encoded : List Char) : Except Bech32Exception (List Char × List UInt8) :=
  if encoded.length < checksumLength + 2 then .error (.length encoded.length)
  else
    match encoded.find? isInvalid with
    | some c => .error (.character c)
    | none =>
        let lower := encoded.map Char.toLower
        let upper := encoded.map Char.toUpper
        if encoded ≠ lower ∧ encoded ≠ upper then .error .mixedCase
        else decodeLower lower

/-- The prefix, the payload and the version. -/
def decode (encoded : List Char) : Except Bech32Exception (List Char × List UInt8 × UInt8) :=
  match decodeInternal encoded with
  | .error exception => .error exception
  | .ok (prefixString, decoded) =>
      match convertBits decoded fiveToEightBits with
      | [] => .error .indexOutOfRange
      | version :: payload => .ok (prefixString, payload, version)

end decode

end Miningcore.Kaspa

/-!
## What regrouping does to the bits

The groups and the bits of the next one are the bits that were moved, in order.
With padding the groups are all bits and fewer zeros than a group, and without
it the bits of the next group are dropped.
-/

namespace Miningcore.Kaspa

open Foundation

namespace Regrouping

/-- The groups fit, and the next one is not complete. -/
structure Valid (toBits : ℕ) (state : Regrouping) : Prop where
  groups : ∀ n ∈ state.regrouped.map UInt8.toNat, n < 2 ^ toBits
  filled : state.filledBits < toBits
  nextByte : state.nextByte.toNat < 2 ^ state.filledBits

/-- The bits that were moved. -/
def stream (toBits : ℕ) (state : Regrouping) : List Bool :=
  bitStream toBits (state.regrouped.map UInt8.toNat) ++
    bits state.filledBits state.nextByte.toNat

theorem valid_empty {toBits : ℕ} (h : 0 < toBits) : Valid toBits {} where
  groups := by simp
  filled := h
  nextByte := Nat.one_pos

theorem stream_empty (toBits : ℕ) : stream toBits {} = [] :=
  rfl

/-- The state after some bits are put into the next group. -/
def extend (toBits : ℕ) (state : Regrouping) (count : ℕ) (nextByte : UInt8) : Regrouping :=
  if state.filledBits + count = toBits then { regrouped := state.regrouped ++ [nextByte] }
  else { state with nextByte, filledBits := state.filledBits + count }

variable {toBits count : ℕ} {state : Regrouping} {nextByte : UInt8}

theorem Valid.extend (h : state.Valid toBits) (count : ℕ)
    (hcount : count ≤ toBits - state.filledBits)
    (hnextByte : nextByte.toNat < 2 ^ (state.filledBits + count)) :
    (state.extend toBits count nextByte).Valid toBits := by
  have hfilled := h.filled
  rw [Regrouping.extend]
  split_ifs with hcomplete
  · constructor
    · rw [List.map_append, List.forall_mem_append]
      refine ⟨h.groups, ?_⟩
      rw [hcomplete] at hnextByte
      simpa using hnextByte
    · exact Nat.zero_lt_of_lt hfilled
    · exact Nat.one_pos
  · exact ⟨h.groups, by dsimp only; omega, hnextByte⟩

theorem stream_extend {moved : List Bool}
    (hnextByte : bits (state.filledBits + count) nextByte.toNat =
      bits state.filledBits state.nextByte.toNat ++ moved) :
    (state.extend toBits count nextByte).stream toBits = state.stream toBits ++ moved := by
  rw [Regrouping.extend]
  split_ifs with hcomplete
  · rw [hcomplete] at hnextByte
    rw [stream, stream, List.map_append, bitStream_append, List.map_singleton,
      bitStream_singleton, hnextByte, bits, List.append_nil, List.append_assoc]
  · rw [stream, stream, List.append_assoc, ← hnextByte]

end Regrouping

/-- The next group takes the highest bits of what is left of a byte. -/
theorem toNat_nextByte {next shiftedB filledBits : ℕ} (count : ℕ) (hnext : next < 2 ^ filledBits)
    (hshifted : shiftedB < 2 ^ 8) (hfits : filledBits + count ≤ 8) :
    ((next <<< count) ||| (shiftedB >>> (8 - count))).toUInt8.toNat =
      (next <<< count) ||| (shiftedB >>> (8 - count)) ∧
    (next <<< count) ||| (shiftedB >>> (8 - count)) < 2 ^ (filledBits + count) ∧
    bits (filledBits + count) ((next <<< count) ||| (shiftedB >>> (8 - count))) =
      bits filledBits next ++ (bits 8 shiftedB).take count := by
  have htop : shiftedB >>> (8 - count) < 2 ^ count := by
    rw [Nat.shiftRight_eq_div_pow]
    apply Nat.div_lt_of_lt_mul
    rwa [← pow_add, Nat.sub_add_cancel (by omega)]
  have hlt := shiftLeft_or_lt hnext htop
  refine ⟨?_, hlt, ?_⟩
  · exact UInt8.toNat_ofNat_of_lt' (hlt.trans_le (Nat.pow_le_pow_right Nat.two_pos hfits))
  · rw [bits_shiftLeft_or htop, bits_shiftRight (by omega)]

theorem moveBits_spec {toBits : ℕ} (htoBits : toBits ≤ 8) {turns remaining : ℕ}
    (hturns : remaining ≤ turns) (hremaining : remaining ≤ 8) {state : Regrouping}
    (hvalid : state.Valid toBits) (shiftedB : UInt8) :
    (moveBits toBits turns state shiftedB remaining).Valid toBits ∧
      (moveBits toBits turns state shiftedB remaining).stream toBits =
        state.stream toBits ++ (bits 8 shiftedB.toNat).take remaining := by
  induction turns generalizing remaining state shiftedB with
  | zero =>
      obtain rfl := Nat.le_zero.mp hturns
      rw [moveBits, List.take_zero, List.append_nil]
      exact ⟨hvalid, rfl⟩
  | succ turns ih =>
      rw [moveBits]
      split_ifs with hzero
      · rw [hzero, List.take_zero, List.append_nil]
        exact ⟨hvalid, rfl⟩
      · dsimp only
        have hfilled := hvalid.filled
        have hcount : (if remaining < toBits - state.filledBits then remaining
            else toBits - state.filledBits) = min remaining (toBits - state.filledBits) := by
          rw [min_def]
          split_ifs <;> omega
        rw [hcount]
        generalize hextract : min remaining (toBits - state.filledBits) = count
        have hbits := toNat_nextByte count hvalid.nextByte shiftedB.toNat_lt
          (by omega)
        obtain ⟨htoNat, hlt, hstream⟩ := hbits
        have hextended := hvalid.extend count (by omega) (htoNat ▸ hlt)
        obtain ⟨hrest, hreststream⟩ := @ih (remaining - count) (by omega) (by omega) _
          hextended (shiftedB.toNat <<< count).toUInt8
        have htake : (bits 8 shiftedB.toNat).take count =
            ((bits 8 shiftedB.toNat).take remaining).take count := by
          rw [List.take_take, min_eq_left (by omega)]
        refine ⟨hrest, hreststream.trans ?_⟩
        rw [Regrouping.stream_extend (htoNat.symm ▸ hstream), UInt8.toNat_ofNat',
          take_bits_shiftLeft (by omega) hremaining, List.append_assoc, htake,
          List.take_append_drop]

section conversions

/-- A byte is moved from its highest bit on. -/
theorem take_bits_first {fromBits : ℕ} (h : fromBits ≤ 8) (b : ℕ) :
    (bits 8 (b <<< (8 - fromBits)).toUInt8.toNat).take fromBits = bits fromBits b := by
  have hbits := bits_shiftLeft_or (Nat.two_pow_pos (8 - fromBits)) fromBits b
  rw [Nat.or_zero, Nat.add_sub_cancel' h] at hbits
  have htoNat : (b <<< (8 - fromBits)).toUInt8.toNat = b <<< (8 - fromBits) % 2 ^ 8 :=
    UInt8.toNat_ofNat'
  rw [htoNat, bits_mod, hbits, List.take_left' (length_bits _ _)]

/-- All bits of the data are in the groups and the next one. -/
theorem regroup_spec (conversionType : ConversionType) (hfrom : conversionType.fromBits ≤ 8)
    (hpos : 0 < conversionType.toBits) (hto : conversionType.toBits ≤ 8) (data : List UInt8) :
    (regroup conversionType data).Valid conversionType.toBits ∧
      (regroup conversionType data).stream conversionType.toBits =
        bitStream conversionType.fromBits (data.map UInt8.toNat) := by
  induction data using List.reverseRecOn with
  | nil => exact ⟨Regrouping.valid_empty hpos, Regrouping.stream_empty _⟩
  | append_singleton data b ih =>
      obtain ⟨hvalid, hstream⟩ := ih
      obtain ⟨hvalid', hstream'⟩ := moveBits_spec hto le_rfl hfrom hvalid
        (b.toNat <<< (8 - conversionType.fromBits)).toUInt8
      rw [regroup, List.foldl_append]
      refine ⟨hvalid', hstream'.trans ?_⟩
      rw [hstream, take_bits_first hfrom, List.map_append, bitStream_append, List.map_singleton,
        bitStream_singleton]

/-- Padding fills the last group with zeros. -/
theorem Regrouping.toNat_padded {toBits : ℕ} {state : Regrouping} (h : state.Valid toBits)
    (hto : toBits ≤ 8) :
    (state.nextByte.toNat <<< (toBits - state.filledBits)).toUInt8.toNat < 2 ^ toBits ∧
      bits toBits (state.nextByte.toNat <<< (toBits - state.filledBits)).toUInt8.toNat =
        bits state.filledBits state.nextByte.toNat ++
          List.replicate (toBits - state.filledBits) false := by
  have hfilled := h.filled
  have hzero := Nat.two_pow_pos (toBits - state.filledBits)
  have hlt := shiftLeft_or_lt h.nextByte hzero
  have hbits := bits_shiftLeft_or hzero state.filledBits state.nextByte.toNat
  rw [Nat.or_zero, Nat.add_sub_cancel' hfilled.le] at hlt hbits
  have htoNat : (state.nextByte.toNat <<< (toBits - state.filledBits)).toUInt8.toNat =
      state.nextByte.toNat <<< (toBits - state.filledBits) :=
    UInt8.toNat_ofNat_of_lt' (hlt.trans_le (Nat.pow_le_pow_right Nat.two_pos hto))
  rw [htoNat, ← bits_zero]
  exact ⟨hlt, hbits⟩

/-- Bytes are as many groups of five bits as are needed, with zeros at the end of the last. -/
theorem convertBits_eightToFiveBits (data : List UInt8) :
    (∀ n ∈ (convertBits data eightToFiveBits).map UInt8.toNat, n < 2 ^ 5) ∧
      ∃ count < 5, bitStream 5 ((convertBits data eightToFiveBits).map UInt8.toNat) =
        bitStream 8 (data.map UInt8.toNat) ++ List.replicate count false := by
  obtain ⟨hvalid, hstream⟩ := regroup_spec eightToFiveBits (by decide) (by decide) (by decide)
    data
  change Regrouping.Valid 5 _ at hvalid
  change Regrouping.stream 5 _ = bitStream 8 _ at hstream
  rw [← hstream, convertBits]
  generalize regroup eightToFiveBits data = state at hvalid hstream ⊢
  by_cases hfilled : 0 < state.filledBits
  · obtain ⟨hlt, hpadded⟩ := Regrouping.toNat_padded hvalid (by decide)
    rw [if_pos ⟨rfl, hfilled⟩, List.map_append, List.map_singleton]
    refine ⟨List.forall_mem_append.mpr ⟨hvalid.groups, List.forall_mem_singleton.mpr hlt⟩,
      5 - state.filledBits, by omega, ?_⟩
    rw [bitStream_append, bitStream_singleton]
    exact (congrArg _ hpadded).trans (List.append_assoc _ _ _).symm
  · rw [if_neg fun h => hfilled h.2]
    refine ⟨hvalid.groups, 0, by decide, ?_⟩
    rw [Regrouping.stream, Nat.eq_zero_of_not_pos hfilled, bits, List.replicate_zero,
      List.append_nil, List.append_nil]

/-- Groups of five bits are as many bytes as are complete, and fewer bits than a byte that are
dropped. -/
theorem convertBits_fiveToEightBits (data : List UInt8) :
    (regroup fiveToEightBits data).Valid 8 ∧
      bitStream 8 ((convertBits data fiveToEightBits).map UInt8.toNat) ++
          bits (regroup fiveToEightBits data).filledBits
            (regroup fiveToEightBits data).nextByte.toNat =
        bitStream 5 (data.map UInt8.toNat) := by
  obtain ⟨hvalid, hstream⟩ := regroup_spec fiveToEightBits (by decide) (by decide) (by decide)
    data
  refine ⟨hvalid, ?_⟩
  rw [convertBits, if_neg fun h => absurd h.1 Bool.false_ne_true]
  exact hstream

end conversions

end Miningcore.Kaspa
