import Miningcore.Foundation.BigEndian

/-!
# The arrays of Equihash

Groups of bits are expanded to whole bytes, a number of zero bytes in front, and
compressed again. A solution is sent as the indices of the minimal number of bits.

## Implementation notes

The accumulator is a 32-bit number. What is written behind the last complete group, and
what is read behind the last element, does not occur.
-/

namespace Miningcore.EquihashSolver

open Foundation

structure Accumulator where
  accBits : Nat := 0
  accValue : Nat := 0

def bitLenMask (bitLen : Nat) : Nat := 1 <<< bitLen - 1

def elementWidth (bitLen bytePad : Nat) : Nat := (bitLen + 7) / 8 + bytePad

section Expand

variable (bitLen bytePad : Nat)

/-- The element that is written. -/
def writeElement (acc : Accumulator) : List UInt8 :=
  let outWidth := elementWidth bitLen bytePad
  (List.range outWidth).map fun x =>
    if x < bytePad then 0
    else
      ((acc.accValue >>> (acc.accBits + 8 * (outWidth - x - 1))) &&&
        ((bitLenMask bitLen >>> (8 * (outWidth - x - 1))) &&& 0xFF)).toUInt8

def expandFrom : List UInt8 → Accumulator → List UInt8
  | [], _ => []
  | b :: input, acc =>
      let accValue := (acc.accValue <<< 8) % 2 ^ 32 ||| b.toNat
      let accBits := acc.accBits + 8
      if bitLen ≤ accBits then
        let acc := ⟨accBits - bitLen, accValue⟩
        writeElement bitLen bytePad acc ++ expandFrom input acc
      else expandFrom input ⟨accBits, accValue⟩

def expandArray (input : List UInt8) : List UInt8 := expandFrom bitLen bytePad input {}

end Expand

section Compress

variable (bitLen bytePad : Nat)

/-- What is read off the bytes of an element. -/
def readElement : List UInt8 → Nat → Nat
  | [], accValue => accValue
  | b :: rest, accValue =>
      readElement rest (accValue |||
        ((b.toNat &&& ((bitLenMask bitLen >>> (8 * rest.length)) &&& 0xFF)) <<< (8 * rest.length)))

/-- The next bytes, the input being what is not yet read. -/
def compressFrom : Nat → List UInt8 → Accumulator → List UInt8
  | 0, _, _ => []
  | outLen + 1, input, acc =>
      let inWidth := elementWidth bitLen bytePad
      let element := (input.take inWidth).drop bytePad
      let input' := if acc.accBits < 8 then input.drop inWidth else input
      let acc : Accumulator :=
        if acc.accBits < 8 then
          ⟨acc.accBits + bitLen, readElement bitLen element ((acc.accValue <<< bitLen) % 2 ^ 32)⟩
        else acc
      let accBits := acc.accBits - 8
      ((acc.accValue >>> accBits) &&& 0xFF).toUInt8 ::
        compressFrom outLen input' ⟨accBits, acc.accValue⟩

def compressArray (input : List UInt8) (outLen : Nat) : List UInt8 :=
  compressFrom bitLen bytePad outLen input {}

end Compress

def indexSize : Nat := 4

def ehIndexToArray (i : Nat) : List UInt8 := bigEndian indexSize i

def arrayToEhIndex (array : List UInt8) : Nat := bigEndianValue array

/-- The indices in consecutive pieces of an array. -/
def readIndices : Nat → List UInt8 → List Nat
  | 0, _ => []
  | count + 1, array =>
      arrayToEhIndex (array.take indexSize) :: readIndices count (array.drop indexSize)

def indexBytePad (cBitLen : Nat) : Nat := indexSize - (cBitLen + 1 + 7) / 8

def getIndicesFromMinimal (minimal : List UInt8) (cBitLen : Nat) : List Nat :=
  let lenIndices := 8 * indexSize * minimal.length / (cBitLen + 1)
  readIndices (lenIndices / indexSize) (expandArray (cBitLen + 1) (indexBytePad cBitLen) minimal)

def getMinimalFromIndices (indices : List Nat) (cBitLen : Nat) : List UInt8 :=
  let lenIndices := indices.length * indexSize
  let minLen := (cBitLen + 1) * lenIndices / (8 * indexSize)
  compressArray (cBitLen + 1) (indexBytePad cBitLen) (indices.flatMap ehIndexToArray) minLen

/-! ## Elements -/

/-- The bytes of a group. -/
def elementOf (bitLen bytePad value : Nat) : List UInt8 :=
  List.replicate bytePad 0 ++ bigEndian ((bitLen + 7) / 8) value

section Elements

variable {bitLen bytePad : Nat}

@[simp] theorem length_elementOf (value : Nat) :
    (elementOf bitLen bytePad value).length = elementWidth bitLen bytePad := by
  rw [elementOf, List.length_append, List.length_replicate, length_bigEndian, elementWidth,
    Nat.add_comm]

theorem bitLen_le_width (bitLen : Nat) : bitLen ≤ 8 * ((bitLen + 7) / 8) := by omega

theorem lt_of_lt_bitLen {value : Nat} (h : value < 2 ^ bitLen) :
    value < 2 ^ (8 * ((bitLen + 7) / 8)) :=
  h.trans_le (Nat.pow_le_pow_right Nat.two_pos (bitLen_le_width bitLen))

theorem testBit_bitLenMask (bitLen i : Nat) :
    (bitLenMask bitLen).testBit i = decide (i < bitLen) := by
  rw [bitLenMask, Nat.one_shiftLeft, Nat.testBit_two_pow_sub_one]

/-- The mask cuts the group out of the accumulator, byte by byte. -/
theorem writeElement_eq (acc : Accumulator) :
    writeElement bitLen bytePad acc =
      elementOf bitLen bytePad (acc.accValue >>> acc.accBits % 2 ^ bitLen) := by
  apply List.ext_getElem
  · rw [length_elementOf, writeElement, List.length_map, List.length_range]
  · intro x hx hx'
    simp only [writeElement, List.getElem_map, List.getElem_range, elementOf]
    by_cases hpad : x < bytePad
    · rw [if_pos hpad, List.getElem_append_left (by simpa using hpad), List.getElem_replicate]
    · have hshift : elementWidth bitLen bytePad - x - 1 =
          (bitLen + 7) / 8 - (x - bytePad) - 1 := by
        rw [elementWidth]
        omega
      rw [if_neg hpad, List.getElem_append_right (by simpa using hpad), bigEndian_getElem,
        List.length_replicate, hshift]
      apply UInt8.toNat_inj.mp
      apply Nat.eq_of_testBit_eq
      intro i
      rw [UInt8.toNat_ofNat', UInt8.toNat_ofNat', Nat.testBit_mod_two_pow, Nat.testBit_mod_two_pow,
        Nat.testBit_and, Nat.testBit_and, Nat.testBit_shiftRight, Nat.testBit_shiftRight,
        Nat.testBit_shiftRight, Nat.testBit_mod_two_pow, Nat.testBit_shiftRight,
        testBit_bitLenMask]
      have hbyte : (0xFF : Nat).testBit i = decide (i < 8) := Nat.testBit_two_pow_sub_one 8 i
      rw [hbyte, Nat.add_assoc]
      cases decide (i < 8) <;> simp [Bool.and_comm]

/-- Reading puts the masked bytes below each other. -/
theorem readElement_bigEndian (width value accValue : Nat) :
    readElement bitLen (bigEndian width value) accValue =
      accValue ||| (value % 2 ^ bitLen) % 2 ^ (8 * width) := by
  induction width generalizing accValue with
  | zero => simp [bigEndian, readElement, Nat.mod_one]
  | succ width ih =>
      rw [bigEndian, readElement, ih, length_bigEndian, Nat.or_assoc]
      congr 1
      apply Nat.eq_of_testBit_eq
      intro i
      have hhead : (value >>> (8 * width)).toUInt8.toNat = value >>> (8 * width) % 2 ^ 8 :=
        UInt8.toNat_ofNat'
      have hbyte : (0xFF : Nat).testBit (i - 8 * width) = decide (i - 8 * width < 8) :=
        Nat.testBit_two_pow_sub_one 8 _
      rw [hhead, Nat.testBit_or, Nat.testBit_shiftLeft, Nat.testBit_and, Nat.testBit_and,
        Nat.testBit_mod_two_pow, Nat.testBit_mod_two_pow, Nat.testBit_mod_two_pow,
        Nat.testBit_mod_two_pow, Nat.testBit_shiftRight, Nat.testBit_shiftRight,
        testBit_bitLenMask, hbyte]
      rcases Nat.lt_or_ge i (8 * width) with hlt | hge
      · have hlt' : i < 8 * (width + 1) := by omega
        simp [hlt, hlt']
      · rw [Nat.add_sub_cancel' hge, decide_eq_true hge, decide_eq_false (Nat.not_lt_of_ge hge)]
        have hiff : i - 8 * width < 8 ↔ i < 8 * (width + 1) := by omega
        rw [decide_eq_decide.mpr hiff]
        cases decide (i < 8 * (width + 1)) <;> simp [Bool.and_comm]

theorem readElement_elementOf {value : Nat} (h : value < 2 ^ bitLen) (accValue : Nat)
    (rest : List UInt8) :
    readElement bitLen (((elementOf bitLen bytePad value ++ rest).take
      (elementWidth bitLen bytePad)).drop bytePad) accValue = accValue ||| value := by
  rw [List.take_left' (length_elementOf value), elementOf,
    List.drop_left' List.length_replicate, readElement_bigEndian, Nat.mod_eq_of_lt h,
    Nat.mod_eq_of_lt (lt_of_lt_bitLen h)]

end Elements

/-! ## The arrays hold the bits of the groups -/

section Streams

variable {bitLen bytePad : Nat}

/-- What is put into the accumulator follows its bits, as long as these are not pushed out. -/
theorem bits_accumulate (accBits count accValue : Nat) {next : Nat} (hfits : accBits + count ≤ 32)
    (hnext : next < 2 ^ count) :
    bits (accBits + count) ((accValue <<< count) % 2 ^ 32 ||| next) =
      bits accBits accValue ++ bits count next := by
  rw [← bits_shiftLeft_or hnext]
  apply bits_congr
  intro i hi
  rw [Nat.testBit_or, Nat.testBit_or, Nat.testBit_mod_two_pow, decide_eq_true (hi.trans_le hfits),
    Bool.true_and]

theorem expandFrom_spec (hmin : 8 ≤ bitLen) (hmax : bitLen ≤ 25) (input : List UInt8)
    (acc : Accumulator) (hacc : acc.accBits < bitLen) :
    ∃ values rest, expandFrom bitLen bytePad input acc =
        values.flatMap (elementOf bitLen bytePad) ∧
      (∀ value ∈ values, value < 2 ^ bitLen) ∧ rest.length < bitLen ∧
      bitStream bitLen values ++ rest =
        bits acc.accBits acc.accValue ++ bitStream 8 (input.map UInt8.toNat) := by
  induction input generalizing acc with
  | nil =>
      exact ⟨[], bits acc.accBits acc.accValue, rfl, fun _ h => absurd h List.not_mem_nil,
        by rwa [length_bits], (List.append_nil _).symm⟩
  | cons b input ih =>
      have hbits := bits_accumulate acc.accBits 8 acc.accValue (by omega) b.toNat_lt
      have hstream : bits acc.accBits acc.accValue ++ bitStream 8 ((b :: input).map UInt8.toNat) =
          bits (acc.accBits + 8) ((acc.accValue <<< 8) % 2 ^ 32 ||| b.toNat) ++
            bitStream 8 (input.map UInt8.toNat) := by
        rw [hbits, List.append_assoc, List.map_cons]
        rfl
      rw [expandFrom, hstream]
      split
      · rename_i hcomplete
        obtain ⟨values, rest, hvalues, hlt, hrest, heq⟩ := ih
          ⟨acc.accBits + 8 - bitLen, (acc.accValue <<< 8) % 2 ^ 32 ||| b.toNat⟩
          (by dsimp only; omega)
        have hsplit := bits_add bitLen (acc.accBits + 8 - bitLen)
          ((acc.accValue <<< 8) % 2 ^ 32 ||| b.toNat)
        rw [Nat.add_sub_cancel' hcomplete] at hsplit
        refine ⟨((acc.accValue <<< 8) % 2 ^ 32 ||| b.toNat) >>> (acc.accBits + 8 - bitLen) %
          2 ^ bitLen :: values, rest, ?_, ?_, hrest, ?_⟩
        · dsimp only
          rw [List.flatMap_cons, ← hvalues, writeElement_eq]
        · rw [List.forall_mem_cons]
          exact ⟨Nat.mod_lt _ (Nat.two_pow_pos bitLen), hlt⟩
        · rw [hsplit, bitStream, List.flatMap_cons, ← bitStream, bits_mod, List.append_assoc, heq,
            List.append_assoc]
      · exact ih ⟨acc.accBits + 8, _⟩ (by dsimp only; omega)

theorem expandArray_spec (hmin : 8 ≤ bitLen) (hmax : bitLen ≤ 25) (bytePad : Nat)
    (input : List UInt8) :
    ∃ values rest, expandArray bitLen bytePad input = values.flatMap (elementOf bitLen bytePad) ∧
      (∀ value ∈ values, value < 2 ^ bitLen) ∧ rest.length < bitLen ∧
      bitStream bitLen values ++ rest = bitStream 8 (input.map UInt8.toNat) :=
  expandFrom_spec hmin hmax input {} (by dsimp only; omega)

/-- When the groups end with a byte, they are the digits of the number the bytes hold. -/
theorem expandArray_eq (hmin : 8 ≤ bitLen) (hmax : bitLen ≤ 25) {count : Nat} {input : List UInt8}
    (hlength : 8 * input.length = bitLen * count) :
    expandArray bitLen bytePad input =
      (digits bitLen count (bigEndianValue input)).flatMap (elementOf bitLen bytePad) := by
  obtain ⟨values, rest, hexpand, hlt, hrest, hstream⟩ :=
    expandArray_spec hmin hmax bytePad input
  have hlengths := congrArg List.length hstream
  rw [List.length_append, length_bitStream, length_bitStream, List.length_map, hlength] at hlengths
  have hdvd : bitLen ∣ rest.length := by
    rw [← Nat.dvd_add_right (Nat.dvd_mul_right bitLen values.length), hlengths]
    exact Nat.dvd_mul_right bitLen count
  have hnil : rest = [] := List.length_eq_zero_iff.mp (Nat.eq_zero_of_dvd_of_lt hdvd hrest)
  rw [hnil, List.append_nil, ← (bigEndianValue_spec input).2, hlength] at hstream
  rw [hexpand, eq_digits hlt hstream (by omega)]

theorem length_compressFrom (outLen : Nat) (input : List UInt8) (acc : Accumulator) :
    (compressFrom bitLen bytePad outLen input acc).length = outLen := by
  induction outLen generalizing input acc with
  | zero => rfl
  | succ outLen ih => rw [compressFrom, List.length_cons, ih]

/-- The byte above the last bits of the accumulator. -/
theorem bits_highByte {accBits : Nat} (h : 8 ≤ accBits) (accValue : Nat) :
    bits accBits accValue =
      bits 8 ((accValue >>> (accBits - 8)) &&& 0xFF).toUInt8.toNat ++
        bits (accBits - 8) accValue := by
  have hsplit := bits_add 8 (accBits - 8) accValue
  have hbyte : ((accValue >>> (accBits - 8)) &&& 0xFF).toUInt8.toNat =
      (accValue >>> (accBits - 8) &&& 2 ^ 8 - 1) % 2 ^ 8 := UInt8.toNat_ofNat'
  rw [Nat.add_sub_cancel' h] at hsplit
  rw [hsplit, hbyte, Nat.and_two_pow_sub_one_eq_mod, bits_mod, bits_mod]

theorem compressFrom_spec (hmin : 8 ≤ bitLen) (hmax : bitLen ≤ 25) (outLen : Nat)
    (values : List Nat) (hvalues : ∀ value ∈ values, value < 2 ^ bitLen) (acc : Accumulator)
    (hacc : acc.accBits < bitLen) (hlength : 8 * outLen ≤ acc.accBits + bitLen * values.length) :
    bitStream 8 ((compressFrom bitLen bytePad outLen
        (values.flatMap (elementOf bitLen bytePad)) acc).map UInt8.toNat) =
      (bits acc.accBits acc.accValue ++ bitStream bitLen values).take (8 * outLen) := by
  induction outLen generalizing values acc with
  | zero => rfl
  | succ outLen ih =>
      -- With a byte in the accumulator the next byte is its highest one.
      have hbyte : ∀ (values : List Nat) (acc : Accumulator),
          (∀ value ∈ values, value < 2 ^ bitLen) → acc.accBits - 8 < bitLen → 8 ≤ acc.accBits →
          8 * (outLen + 1) ≤ acc.accBits + bitLen * values.length →
          bitStream 8 ((((acc.accValue >>> (acc.accBits - 8)) &&& 0xFF).toUInt8 ::
              compressFrom bitLen bytePad outLen (values.flatMap (elementOf bitLen bytePad))
                ⟨acc.accBits - 8, acc.accValue⟩).map UInt8.toNat) =
            (bits acc.accBits acc.accValue ++ bitStream bitLen values).take (8 * (outLen + 1)) := by
        intro values acc hvalues hacc hfull hlength
        have hrest := ih values hvalues ⟨acc.accBits - 8, acc.accValue⟩ hacc
          (by dsimp only; omega)
        have htake : ∀ head tail : List Bool, head.length = 8 →
            (head ++ tail).take (8 * (outLen + 1)) = head ++ tail.take (8 * outLen) := by
          intro head tail hhead
          rw [List.take_append, hhead, List.take_of_length_le (by omega), Nat.mul_succ,
            Nat.add_sub_cancel]
        rw [List.map_cons, bitStream, List.flatMap_cons, ← bitStream, hrest,
          bits_highByte hfull, List.append_assoc, htake _ _ (length_bits _ _)]
      rw [compressFrom]
      by_cases hfew : acc.accBits < 8
      · cases values with
        | nil =>
            rw [List.length_nil, Nat.mul_zero] at hlength
            omega
        | cons value values =>
            obtain ⟨hlt, hvalues⟩ := List.forall_mem_cons.mp hvalues
            simp only [if_pos hfew, List.flatMap_cons]
            rw [readElement_elementOf hlt, List.drop_left' (length_elementOf value)]
            have hnext := hbyte values
              ⟨acc.accBits + bitLen, (acc.accValue <<< bitLen) % 2 ^ 32 ||| value⟩ hvalues
              (by dsimp only; omega) (by dsimp only; omega)
              (by simp only [List.length_cons, Nat.mul_succ] at hlength ⊢; omega)
            rw [hnext, bits_accumulate _ _ _ (by omega) hlt, List.append_assoc]
            rfl
      · simp only [if_neg hfew]
        exact hbyte values acc hvalues (by omega) (by omega) hlength

theorem compressArray_spec (hmin : 8 ≤ bitLen) (hmax : bitLen ≤ 25) {outLen : Nat}
    {values : List Nat} (hvalues : ∀ value ∈ values, value < 2 ^ bitLen)
    (hlength : 8 * outLen = bitLen * values.length) :
    bitStream 8 ((compressArray bitLen bytePad (values.flatMap (elementOf bitLen bytePad))
      outLen).map UInt8.toNat) = bitStream bitLen values := by
  rw [compressArray, compressFrom_spec hmin hmax outLen values hvalues {} (by dsimp only; omega)
    (by dsimp only; omega), bits, List.nil_append, List.take_of_length_le]
  rw [length_bitStream, hlength]

end Streams

/-! ## Minimal solutions -/

section Minimal

variable {cBitLen : Nat}

theorem elementWidth_index (hmin : 8 ≤ cBitLen + 1) (hmax : cBitLen + 1 ≤ 25) :
    elementWidth (cBitLen + 1) (indexBytePad cBitLen) = indexSize := by
  rw [elementWidth, indexBytePad, indexSize]
  omega

/-- A group with the bytes in front is an index of four bytes. -/
theorem elementOf_eq_ehIndexToArray (hmin : 8 ≤ cBitLen + 1) (hmax : cBitLen + 1 ≤ 25) {i : Nat}
    (h : i < 2 ^ (cBitLen + 1)) :
    elementOf (cBitLen + 1) (indexBytePad cBitLen) i = ehIndexToArray i := by
  have hvalue : ∀ (bytePad : Nat),
      bigEndianValue (List.replicate bytePad 0 ++ bigEndian ((cBitLen + 1 + 7) / 8) i) = i := by
    intro bytePad
    have hzeros : (List.replicate bytePad (0 : UInt8)).foldl
        (fun n byte => n <<< 8 ||| byte.toNat) 0 = 0 := by
      induction bytePad with
      | zero => rfl
      | succ bytePad ih => exact ih
    rw [bigEndianValue, List.foldl_append, hzeros]
    exact bigEndianValue_bigEndian (lt_of_lt_bitLen h)
  have hbytes := bigEndian_bigEndianValue (elementOf (cBitLen + 1) (indexBytePad cBitLen) i)
  rw [length_elementOf, elementWidth_index hmin hmax, elementOf, hvalue] at hbytes
  exact hbytes.symm

theorem flatMap_elementOf (hmin : 8 ≤ cBitLen + 1) (hmax : cBitLen + 1 ≤ 25) {indices : List Nat}
    (h : ∀ i ∈ indices, i < 2 ^ (cBitLen + 1)) :
    indices.flatMap (elementOf (cBitLen + 1) (indexBytePad cBitLen)) =
      indices.flatMap ehIndexToArray := by
  induction indices with
  | nil => rfl
  | cons i indices ih =>
      obtain ⟨hi, h⟩ := List.forall_mem_cons.mp h
      rw [List.flatMap_cons, List.flatMap_cons, ih h, elementOf_eq_ehIndexToArray hmin hmax hi]

theorem readIndices_flatMap (indices : List Nat) (h : ∀ i ∈ indices, i < 2 ^ 32) :
    readIndices indices.length (indices.flatMap ehIndexToArray) = indices := by
  induction indices with
  | nil => rfl
  | cons i indices ih =>
      obtain ⟨hi, h⟩ := List.forall_mem_cons.mp h
      have hlength : (ehIndexToArray i).length = indexSize := length_bigEndian _ _
      rw [List.length_cons, readIndices, List.flatMap_cons, List.take_left' hlength,
        List.drop_left' hlength, ih h]
      congr 1
      exact bigEndianValue_bigEndian hi

theorem lt_index (hmax : cBitLen + 1 ≤ 25) {i : Nat} (h : i < 2 ^ (cBitLen + 1)) : i < 2 ^ 32 :=
  h.trans_le (Nat.pow_le_pow_right Nat.two_pos (by omega))

/-- The indices are the digits of the solution. -/
theorem getIndicesFromMinimal_eq (hmin : 8 ≤ cBitLen + 1) (hmax : cBitLen + 1 ≤ 25) {count : Nat}
    {minimal : List UInt8} (hlength : 8 * minimal.length = (cBitLen + 1) * count) :
    getIndicesFromMinimal minimal cBitLen =
      digits (cBitLen + 1) count (bigEndianValue minimal) := by
  have hcount : 8 * indexSize * minimal.length / (cBitLen + 1) / indexSize = count := by
    have htotal : 8 * indexSize * minimal.length = (cBitLen + 1) * (count * indexSize) := by
      rw [Nat.mul_right_comm, hlength, Nat.mul_assoc]
    rw [htotal, Nat.mul_div_cancel_left _ (Nat.succ_pos cBitLen),
      Nat.mul_div_cancel _ (by decide)]
  have hindices := readIndices_flatMap (digits (cBitLen + 1) count
    (bigEndianValue minimal)) fun i hi => lt_index hmax (digits_lt hi)
  rw [length_digits] at hindices
  rw [getIndicesFromMinimal, hcount, expandArray_eq hmin hmax hlength,
    flatMap_elementOf hmin hmax fun i hi => digits_lt hi, hindices]

theorem length_getMinimalFromIndices {indices : List Nat} :
    (getMinimalFromIndices indices cBitLen).length = (cBitLen + 1) * indices.length / 8 := by
  rw [getMinimalFromIndices, compressArray, length_compressFrom, ← Nat.mul_assoc,
    Nat.mul_div_mul_right _ _ (by decide)]

theorem bitStream_getMinimalFromIndices (hmin : 8 ≤ cBitLen + 1) (hmax : cBitLen + 1 ≤ 25)
    {indices : List Nat} (hdvd : 8 ∣ (cBitLen + 1) * indices.length)
    (h : ∀ i ∈ indices, i < 2 ^ (cBitLen + 1)) :
    bitStream 8 ((getMinimalFromIndices indices cBitLen).map UInt8.toNat) =
      bitStream (cBitLen + 1) indices := by
  rw [getMinimalFromIndices, ← flatMap_elementOf hmin hmax h, compressArray_spec hmin hmax h]
  rw [← Nat.mul_assoc, Nat.mul_div_mul_right _ _ (by decide : 0 < indexSize),
    Nat.mul_div_cancel' hdvd]

theorem eight_mul_length_getMinimalFromIndices {indices : List Nat}
    (hdvd : 8 ∣ (cBitLen + 1) * indices.length) :
    8 * (getMinimalFromIndices indices cBitLen).length = (cBitLen + 1) * indices.length := by
  rw [length_getMinimalFromIndices, Nat.mul_div_cancel' hdvd]

theorem length_getIndicesFromMinimal (hmin : 8 ≤ cBitLen + 1) (hmax : cBitLen + 1 ≤ 25)
    {count : Nat} {minimal : List UInt8} (hlength : 8 * minimal.length = (cBitLen + 1) * count) :
    (getIndicesFromMinimal minimal cBitLen).length = count := by
  rw [getIndicesFromMinimal_eq hmin hmax hlength, length_digits]

theorem lt_of_mem_getIndicesFromMinimal (hmin : 8 ≤ cBitLen + 1) (hmax : cBitLen + 1 ≤ 25)
    {count : Nat} {minimal : List UInt8} (hlength : 8 * minimal.length = (cBitLen + 1) * count) :
    ∀ i ∈ getIndicesFromMinimal minimal cBitLen, i < 2 ^ (cBitLen + 1) := by
  rw [getIndicesFromMinimal_eq hmin hmax hlength]
  exact fun i hi => digits_lt hi

theorem getMinimalFromIndices_getIndicesFromMinimal (hmin : 8 ≤ cBitLen + 1)
    (hmax : cBitLen + 1 ≤ 25) {count : Nat} {minimal : List UInt8}
    (hlength : 8 * minimal.length = (cBitLen + 1) * count) :
    getMinimalFromIndices (getIndicesFromMinimal minimal cBitLen) cBitLen = minimal := by
  have hcount := length_getIndicesFromMinimal hmin hmax hlength
  have hlt := lt_of_mem_getIndicesFromMinimal hmin hmax hlength
  have hdvd : 8 ∣ (cBitLen + 1) * (getIndicesFromMinimal minimal cBitLen).length := by
    rw [hcount, ← hlength]
    exact Nat.dvd_mul_right 8 _
  have hbyte : ∀ {bytes : List UInt8}, ∀ n ∈ bytes.map UInt8.toNat, n < 2 ^ 8 := by
    intro bytes n hn
    obtain ⟨b, -, rfl⟩ := List.mem_map.mp hn
    exact b.toNat_lt
  have hlengths := eight_mul_length_getMinimalFromIndices hdvd
  rw [hcount] at hlengths
  apply List.map_injective_iff.mpr (fun _ _ => UInt8.toNat_inj.mp)
  apply bitStream_injective hbyte hbyte
  · rw [List.length_map, List.length_map]
    omega
  · rw [bitStream_getMinimalFromIndices hmin hmax hdvd hlt,
      getIndicesFromMinimal_eq hmin hmax hlength, bitStream_digits, ← hlength,
      (bigEndianValue_spec minimal).2]

theorem getIndicesFromMinimal_getMinimalFromIndices (hmin : 8 ≤ cBitLen + 1)
    (hmax : cBitLen + 1 ≤ 25) {indices : List Nat} (hdvd : 8 ∣ (cBitLen + 1) * indices.length)
    (hlt : ∀ i ∈ indices, i < 2 ^ (cBitLen + 1)) :
    getIndicesFromMinimal (getMinimalFromIndices indices cBitLen) cBitLen = indices := by
  have hlength := eight_mul_length_getMinimalFromIndices hdvd
  rw [getIndicesFromMinimal_eq hmin hmax hlength]
  symm
  apply eq_digits hlt _ (Nat.succ_pos cBitLen)
  rw [← bitStream_getMinimalFromIndices hmin hmax hdvd hlt, ← hlength, (bigEndianValue_spec _).2]

/-- Solutions of a length that whole indices fill are sent and received in one way: either is
what the other was made of. -/
theorem minimal_indices_round_trip (cBitLen count : Nat) (hmin : 8 ≤ cBitLen + 1)
    (hmax : cBitLen + 1 ≤ 25) (hdvd : 8 ∣ (cBitLen + 1) * count) :
    (∀ minimal : List UInt8, 8 * minimal.length = (cBitLen + 1) * count →
      (getIndicesFromMinimal minimal cBitLen).length = count ∧
      (∀ i ∈ getIndicesFromMinimal minimal cBitLen, i < 2 ^ (cBitLen + 1)) ∧
      getMinimalFromIndices (getIndicesFromMinimal minimal cBitLen) cBitLen = minimal) ∧
    ∀ indices : List Nat, indices.length = count → (∀ i ∈ indices, i < 2 ^ (cBitLen + 1)) →
      8 * (getMinimalFromIndices indices cBitLen).length = (cBitLen + 1) * count ∧
      getIndicesFromMinimal (getMinimalFromIndices indices cBitLen) cBitLen = indices := by
  constructor
  · intro minimal hlength
    exact ⟨length_getIndicesFromMinimal hmin hmax hlength,
      lt_of_mem_getIndicesFromMinimal hmin hmax hlength,
      getMinimalFromIndices_getIndicesFromMinimal hmin hmax hlength⟩
  · rintro indices rfl hlt
    exact ⟨eight_mul_length_getMinimalFromIndices hdvd,
      getIndicesFromMinimal_getMinimalFromIndices hmin hmax hdvd hlt⟩

/-- Solutions of 32 indices of 25 bits. -/
theorem minimal_indices_round_trip_144_5 :
    (8 ≤ 24 + 1 ∧ 24 + 1 ≤ 25 ∧ 8 ∣ (24 + 1) * 32) ∧
      getMinimalFromIndices (getIndicesFromMinimal (List.replicate 100 0xa5) 24) 24 =
        List.replicate 100 0xa5 :=
  ⟨by decide, ((minimal_indices_round_trip 24 32 (by decide) (by decide) (by decide)).1
    (List.replicate 100 0xa5) (by rw [List.length_replicate])).2.2⟩

end Minimal

end Miningcore.EquihashSolver
