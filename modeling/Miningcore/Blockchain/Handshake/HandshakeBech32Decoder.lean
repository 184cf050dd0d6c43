import Mathlib.Data.Int.Notation
import Mathlib.Data.Nat.Notation

/-!
# The addresses of Handshake

An address is a prefix, a separator and characters for groups of five bits: a
version, a program and a checksum. The program is regrouped to bytes in the array
that holds its groups, with an accumulator of 32 bits.

## Implementation notes

A string is a list of characters. An exception is its message.
-/

namespace Miningcore.Handshake.HandshakeBech32Decoder

abbrev Bytes := List UInt8

/-- The group of a character, and -1 for the characters without one. -/
def table : List ℤ :=
  [-1, -1, -1, -1, -1, -1, -1, -1,
   -1, -1, -1, -1, -1, -1, -1, -1,
   -1, -1, -1, -1, -1, -1, -1, -1,
   -1, -1, -1, -1, -1, -1, -1, -1,
   -1, -1, -1, -1, -1, -1, -1, -1,
   -1, -1, -1, -1, -1, -1, -1, -1,
   15, -1, 10, 17, 21, 20, 26, 30,
    7,  5, -1, -1, -1, -1, -1, -1,
   -1, 29, -1, 24, 13, 25,  9,  8,
   23, -1, 18, 22, 31, 27, 19, -1,
    1,  0,  3, 16, 11, 28, 12, 14,
    6,  4,  2, -1, -1, -1, -1, -1,
   -1, 29, -1, 24, 13, 25,  9,  8,
   23, -1, 18, 22, 31, 27, 19, -1,
    1,  0,  3, 16, 11, 28, 12, 14,
    6,  4,  2, -1, -1, -1, -1, -1]

/-- All ones if a bit of a number is set. -/
def bitMask (b : UInt32) (i : UInt32) : UInt32 := 0 - (b >>> i &&& 1)

def polymod (c : UInt32) : UInt32 :=
  let b := c >>> 25
  ((c &&& 0x1ffffff) <<< 5) ^^^ (0x3b6a57b2 &&& bitMask b 0) ^^^ (0x26508e6d &&& bitMask b 1) ^^^
    (0x1ea119fa &&& bitMask b 2) ^^^ (0x3d4233dd &&& bitMask b 3) ^^^ (0x2a1462b3 &&& bitMask b 4)

section deserialize

/-- What the first loop finds: the cases of the letters and the last separator. -/
structure Scan where
  lower : Bool := false
  upper : Bool := false
  hlen : ℕ := 0

def scanChar (state : Scan) (i : ℕ) (ch : Char) : Scan :=
  if 97 ≤ ch.toNat ∧ ch.toNat ≤ 122 then { state with lower := true }
  else if 65 ≤ ch.toNat ∧ ch.toNat ≤ 90 then { state with upper := true }
  else if ch.toNat = 49 then { state with hlen := i }
  else state

/-- The first loop, from the index `i` on. -/
def scan (state : Scan) (i : ℕ) : List Char → Except String Scan
  | [] => .ok state
  | ch :: rest =>
      if ch.toNat < 33 ∨ 126 < ch.toNat then .error "Invalid bech32 character."
      else scan (scanChar state i ch) (i + 1) rest

def lowerCase (ch : Char) : Char :=
  if 65 ≤ ch.toNat ∧ ch.toNat ≤ 90 then Char.ofNat (ch.toNat + 32) else ch

/-- The checksum over the prefix. -/
def prefixChecksum (hrp : List Char) : UInt32 :=
  let high := hrp.foldl (fun chk ch => polymod chk ^^^ ((lowerCase ch).toNat >>> 5).toUInt32) 1
  hrp.foldl (fun chk ch => polymod chk ^^^ (ch.toNat &&& 0x1f).toUInt32) (polymod high)

/-- The last loop, from the index `i` on. -/
def readData (length i : ℕ) (chk : UInt32) (data : Bytes) :
    List Char → Except String (UInt32 × Bytes)
  | [] => .ok (chk, data)
  | ch :: rest =>
      let val := table.getD ch.toNat (-1)
      if val = -1 then .error "Invalid bech32 character."
      else
        readData length (i + 1) (polymod chk ^^^ val.toNat.toUInt32)
          (if i < length - 6 then data ++ [val.toNat.toUInt8] else data) rest

def deserialize (checksum : UInt32) (str : List Char) : Except String (List Char × Bytes) :=
  if str.length < 8 ∨ 90 < str.length then .error "Invalid bech32 string length."
  else
    match scan {} 0 str with
    | .error message => .error message
    | .ok state =>
        if state.hlen = 0 then .error "Invalid bech32 human-readable part."
        else if str.length < state.hlen + 1 + 6 then .error "Invalid bech32 data length."
        else if state.lower && state.upper then .error "Invalid bech32 casing."
        else
          let hrp := str.take state.hlen
          match readData str.length (state.hlen + 1) (prefixChecksum hrp) []
              (str.drop (state.hlen + 1)) with
          | .error message => .error message
          | .ok (chk, data) =>
              if chk ≠ checksum then .error "Invalid bech32 checksum."
              else .ok (hrp.map lowerCase, data)

end deserialize

section convert

/-- The array that is read and written, the accumulator and how many of its bits are left, and
where the next group is written. -/
structure Conversion where
  buffer : Bytes
  acc : BitVec 32 := 0
  bits : ℕ := 0
  j : ℕ

variable (dstbits srcbits : ℕ)

/-- The lowest bits of a number as a group. -/
def masked (acc : BitVec 32) : UInt8 :=
  (acc &&& (1 <<< dstbits - 1)).toNat.toUInt8

/-- The inner loop, which writes the complete groups. -/
def writeGroups (state : Conversion) : Conversion :=
  if dstbits ≤ state.bits ∧ 0 < dstbits then
    let bits := state.bits - dstbits
    writeGroups
      { state with
        bits
        buffer := state.buffer.set state.j (masked dstbits (state.acc.sshiftRight bits))
        j := state.j + 1 }
  else state
termination_by state.bits

/-- The outer loop reads the array from the index `i` on. -/
def readGroups (length i : ℕ) (state : Conversion) : Conversion :=
  if i < length then
    let acc := (state.acc <<< srcbits) ||| BitVec.ofNat 32 (state.buffer.getD i 0).toNat
    readGroups length (i + 1)
      (writeGroups dstbits { state with acc, bits := state.bits + srcbits })
  else state
termination_by length - i

/-- `Convert` with one array for both, which starts to be written at one place and to be read at
another. -/
def convert (array : Bytes) (dstoff srcoff : ℕ) (pad : Bool) : Except String Bytes :=
  if dstbits < 1 ∨ 8 < dstbits ∨ srcbits < 1 ∨ 8 < srcbits ∨
      array.length - dstoff < (array.length * srcbits + dstbits - 1) / dstbits then .error ""
  else
    let state := readGroups dstbits srcbits array.length srcoff { buffer := array, j := dstoff }
    let rest := masked dstbits (state.acc <<< (dstbits - state.bits))
    if pad then
      if state.bits ≠ 0 then .ok ((state.buffer.set state.j rest).take (state.j + 1))
      else .ok (state.buffer.take state.j)
    else if rest ≠ 0 ∨ srcbits ≤ state.bits then .error "Invalid bits."
    else .ok (state.buffer.take state.j)

end convert

/-- The prefix, the version and the program. -/
def decode (checksum : UInt32) (addr : List Char) : Except String (List Char × UInt8 × Bytes) :=
  match deserialize checksum addr with
  | .error message => .error message
  | .ok (hrp, data) =>
      match data with
      | [] => .error "Invalid bech32 data length."
      | version :: _ =>
          if 65 < data.length then .error "Invalid bech32 data length."
          else if 31 < version then .error "Invalid bech32 version."
          else
            match convert 8 5 data 0 1 false with
            | .error message => .error message
            | .ok hash =>
                if hash.length < 2 ∨ 40 < hash.length then .error "Invalid bech32 data length."
                else .ok (hrp, version, hash)

end Miningcore.Handshake.HandshakeBech32Decoder
