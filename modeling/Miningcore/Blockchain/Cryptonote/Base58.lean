import Mathlib.Data.Nat.Digits.Lemmas
import Miningcore.Foundation.BigEndian
import Miningcore.Foundation.Blocks

/-!
# Base58 in blocks

Eight bytes are written as eleven letters, fewer bytes as fewer letters. Every text that is
read is the one that is written for the bytes it stands for.

## Implementation notes

Letters are the bytes of a text. What would be written in front of a block does not occur.

## Main results

* `decode_eq_some_iff`
-/

namespace Miningcore.Base58

open Foundation

def alphabet : List UInt8 :=
  ['1', '2', '3', '4', '5', '6', '7', '8', '9', 'A', 'B', 'C', 'D', 'E', 'F', 'G', 'H', 'J', 'K',
    'L', 'M', 'N', 'P', 'Q', 'R', 'S', 'T', 'U', 'V', 'W', 'X', 'Y', 'Z', 'a', 'b', 'c', 'd', 'e',
    'f', 'g', 'h', 'i', 'j', 'k', 'm', 'n', 'o', 'p', 'q', 'r', 's', 't', 'u', 'v', 'w', 'x', 'y',
    'z'].map fun c => c.toNat.toUInt8

def alphabetSize : Nat := 58

def encodedBlockSizes : List Nat := [0, 2, 3, 5, 6, 7, 9, 10, 11]

def fullBlockSize : Nat := 8

def fullEncodedBlockSize : Nat := 11

def letterOf (digit : Nat) : UInt8 := alphabet.getD digit 0

/-- The places of the letters, counted from the first one. -/
def alphabetOffsets : List Nat := alphabet.map fun letter => letter.toNat - 49

def reverseAlphabet (letter : UInt8) : Option Nat :=
  if letter.toNat < 49 then none else (reverseTable 74 alphabetOffsets)[letter.toNat - 49]?.join

def decodedBlockSize (encodedBlockSize : Nat) : Option Nat :=
  (reverseTable (fullEncodedBlockSize + 1) encodedBlockSizes)[encodedBlockSize]?.join

/-! ## Encoding -/

/-- The letters from the last place on, where the first letter of the alphabet stays when the
number is used up. -/
def encodeDigits : Nat → Nat → List UInt8
  | 0, _ => []
  | places + 1, num =>
      if num = 0 then List.replicate (places + 1) (letterOf 0)
      else letterOf (num % alphabetSize) :: encodeDigits places (num / alphabetSize)

def encodeBlock (block : List UInt8) : List UInt8 :=
  (encodeDigits (encodedBlockSizes.getD block.length 0) (bigEndianValue block)).reverse

def encode (data : List UInt8) : List UInt8 :=
  if data = [] then []
  else
    let last := lastBlock fullBlockSize data
    (fullBlocks fullBlockSize data).flatMap encodeBlock ++
      if 0 < last.length then encodeBlock last else []

/-! ## Decoding -/

/-- The number of letters, the last of them first, with 64 bits. -/
def decodeDigits : List UInt8 → Nat → Nat → Option Nat
  | [], resNum, _ => some resNum
  | letter :: letters, resNum, order =>
      match reverseAlphabet letter with
      | none => none
      | some digit =>
          let product := order * digit
          let tmp := (resNum + product % 2 ^ 64) % 2 ^ 64
          if tmp < resNum ∨ product / 2 ^ 64 ≠ 0 then none
          else decodeDigits letters tmp (order * alphabetSize % 2 ^ 64)

def decodeBlock (block : List UInt8) : Option (List UInt8) :=
  match decodedBlockSize block.length with
  | none => none
  | some resSize =>
      if resSize = 0 then none
      else
        match decodeDigits block.reverse 0 1 with
        | none => none
        | some resNum =>
            if resSize < fullBlockSize ∧ 1 <<< (8 * resSize) ≤ resNum then none
            else some (bigEndian resSize resNum)

def decode (enc : List UInt8) : Option (List UInt8) :=
  if enc = [] then some []
  else
    let last := lastBlock fullEncodedBlockSize enc
    match decodedBlockSize last.length with
    | none => none
    | some _ =>
        match (fullBlocks fullEncodedBlockSize enc).mapM decodeBlock with
        | none => none
        | some blocks =>
            if 0 < last.length then (decodeBlock last).map (blocks.flatten ++ ·)
            else some blocks.flatten

/-! ## Tables -/

theorem reverseAlphabet_iff {letter : UInt8} {digit : Nat} :
    reverseAlphabet letter = some digit ↔ digit < alphabetSize ∧ letterOf digit = letter := by
  have hletters : ∀ digit < alphabetSize, 49 ≤ (letterOf digit).toNat ∧
      alphabetOffsets[digit]? = some ((letterOf digit).toNat - 49) := by decide +kernel
  have hlength : alphabetOffsets.length = alphabetSize := by decide +kernel
  rw [reverseAlphabet]
  constructor
  · intro h
    split at h
    · cases h
    · rename_i hle
      rw [reverseTable_iff (by decide +kernel) (by decide +kernel)] at h
      have hdigit : digit < alphabetSize := by
        rw [← hlength]
        exact (List.getElem?_eq_some_iff.mp h).1
      obtain ⟨hge, hoffset⟩ := hletters digit hdigit
      refine ⟨hdigit, UInt8.toNat_inj.mp ?_⟩
      have heq := Option.some.inj (hoffset.symm.trans h)
      omega
  · rintro ⟨hdigit, rfl⟩
    obtain ⟨hge, hoffset⟩ := hletters digit hdigit
    rw [if_neg (Nat.not_lt_of_ge hge), reverseTable_iff (by decide +kernel) (by decide +kernel)]
    exact hoffset

theorem decodedBlockSize_iff {encodedSize size : Nat} :
    decodedBlockSize encodedSize = some size ↔ encodedBlockSizes[size]? = some encodedSize :=
  reverseTable_iff (by decide) (by decide)

/-! ## Numbers in letters -/

theorem encodeDigits_eq {places num : Nat} (h : num < alphabetSize ^ places) :
    ∃ digits : List Nat, encodeDigits places num = digits.map letterOf ∧ digits.length = places ∧
      (∀ digit ∈ digits, digit < alphabetSize) ∧ Nat.ofDigits alphabetSize digits = num := by
  induction places generalizing num with
  | zero =>
      rw [pow_zero, Nat.lt_one_iff] at h
      exact ⟨[], rfl, rfl, fun _ h => absurd h List.not_mem_nil, h.symm⟩
  | succ places ih =>
      rw [encodeDigits]
      split
      · rename_i hzero
        refine ⟨List.replicate (places + 1) 0, ?_, List.length_replicate, ?_, ?_⟩
        · rw [List.map_replicate]
        · intro digit hdigit
          rw [List.eq_of_mem_replicate hdigit]
          decide
        · rw [hzero, Nat.ofDigits_replicate_zero]
      · have hrest : num / alphabetSize < alphabetSize ^ places := by
          apply Nat.div_lt_of_lt_mul
          rwa [Nat.pow_succ'] at h
        obtain ⟨digits, hdigits, hlength, hlt, hvalue⟩ := ih hrest
        refine ⟨num % alphabetSize :: digits, ?_, ?_, ?_, ?_⟩
        · rw [hdigits, List.map_cons]
        · rw [List.length_cons, hlength]
        · exact List.forall_mem_cons.mpr ⟨Nat.mod_lt _ (by decide), hlt⟩
        · rw [Nat.ofDigits_cons, hvalue]
          exact Nat.mod_add_div num alphabetSize

/-- The letters of a number are unique. -/
theorem encodeDigits_ofDigits {digits : List Nat} (h : ∀ digit ∈ digits, digit < alphabetSize) :
    encodeDigits digits.length (Nat.ofDigits alphabetSize digits) = digits.map letterOf := by
  have hlt := Nat.ofDigits_lt_base_pow_length (by decide : 1 < alphabetSize) h
  obtain ⟨digits', hdigits, hlength, hlt', hvalue⟩ := encodeDigits_eq hlt
  rw [hdigits, Nat.ofDigits_inj_of_len_eq (by decide) hlength hlt' h hvalue]

/-- What letters from a place on stand for, the last letter first. -/
def ReadsAs (letters : List UInt8) (k resNum n : Nat) : Prop :=
  ∃ digits : List Nat, letters = digits.map letterOf ∧
    (∀ digit ∈ digits, digit < alphabetSize) ∧
    n = resNum + alphabetSize ^ k * Nat.ofDigits alphabetSize digits

theorem readsAs_nil {k resNum n : Nat} : ReadsAs [] k resNum n ↔ n = resNum := by
  constructor
  · rintro ⟨digits, hdigits, -, hvalue⟩
    obtain rfl := List.map_eq_nil_iff.mp hdigits.symm
    simpa using hvalue
  · intro h
    exact ⟨[], rfl, fun _ h => absurd h List.not_mem_nil, by simp [h]⟩

theorem readsAs_cons {letter : UInt8} {letters : List UInt8} {digit k resNum n : Nat}
    (h : reverseAlphabet letter = some digit) :
    ReadsAs (letter :: letters) k resNum n ↔
      ReadsAs letters (k + 1) (resNum + alphabetSize ^ k * digit) n := by
  obtain ⟨hlt, hletter⟩ := reverseAlphabet_iff.mp h
  have hstep : ∀ digits : List Nat,
      resNum + alphabetSize ^ k * Nat.ofDigits alphabetSize (digit :: digits) =
        resNum + alphabetSize ^ k * digit +
          alphabetSize ^ (k + 1) * Nat.ofDigits alphabetSize digits := by
    intro digits
    rw [Nat.ofDigits_cons, Nat.pow_succ]
    ring
  constructor
  · rintro ⟨_ | ⟨digit', digits⟩, hdigits, hdigitslt, hvalue⟩
    · cases hdigits
    · rw [List.map_cons, List.cons.injEq] at hdigits
      have hsome := reverseAlphabet_iff.mpr ⟨hdigitslt digit' List.mem_cons_self, hdigits.1.symm⟩
      obtain rfl : digit' = digit := Option.some.inj (hsome.symm.trans h)
      exact ⟨digits, hdigits.2, (List.forall_mem_cons.mp hdigitslt).2, hvalue.trans (hstep digits)⟩
  · rintro ⟨digits, rfl, hdigitslt, hvalue⟩
    exact ⟨digit :: digits, by rw [List.map_cons, hletter],
      List.forall_mem_cons.mpr ⟨hlt, hdigitslt⟩, hvalue.trans (hstep digits).symm⟩

theorem not_readsAs_of_none {letter : UInt8} {letters : List UInt8} {k resNum n : Nat}
    (h : reverseAlphabet letter = none) : ¬ ReadsAs (letter :: letters) k resNum n := by
  rintro ⟨_ | ⟨digit, digits⟩, hdigits, hlt, -⟩
  · cases hdigits
  · rw [List.map_cons, List.cons.injEq] at hdigits
    have hsome := reverseAlphabet_iff.mpr ⟨hlt digit List.mem_cons_self, hdigits.1.symm⟩
    rw [h] at hsome
    cases hsome

theorem le_of_readsAs {letters : List UInt8} {k resNum n : Nat} (h : ReadsAs letters k resNum n) :
    resNum ≤ n := by
  obtain ⟨digits, -, -, hvalue⟩ := h
  rw [hvalue]
  exact Nat.le_add_right _ _

/-- Letters are read exactly if they are the digits of a number of 64 bits. -/
theorem decodeDigits_iff {letters : List UInt8} {k resNum n : Nat} (hk : k + letters.length ≤ 11)
    (hresNum : resNum < 2 ^ 64) :
    decodeDigits letters resNum (alphabetSize ^ k % 2 ^ 64) = some n ↔
      ReadsAs letters k resNum n ∧ n < 2 ^ 64 := by
  induction letters generalizing k resNum with
  | nil =>
      rw [decodeDigits, Option.some_inj, readsAs_nil]
      constructor
      · rintro rfl
        exact ⟨rfl, hresNum⟩
      · exact fun h => h.1.symm
  | cons letter letters ih =>
      rw [List.length_cons] at hk
      have hsmall : alphabetSize ^ k < 2 ^ 64 := by
        calc
          alphabetSize ^ k ≤ alphabetSize ^ 10 := Nat.pow_le_pow_right (by decide) (by omega)
          _ < 2 ^ 64 := by decide
      rw [decodeDigits, Nat.mod_eq_of_lt hsmall, ← Nat.pow_succ]
      split
      · rename_i hnone
        exact iff_of_false (by simp) fun h => not_readsAs_of_none hnone h.1
      · rename_i digit hdigit
        have hsum : ((resNum + alphabetSize ^ k * digit % 2 ^ 64) % 2 ^ 64 < resNum ∨
            alphabetSize ^ k * digit / 2 ^ 64 ≠ 0) ↔
              2 ^ 64 ≤ resNum + alphabetSize ^ k * digit := by omega
        dsimp only
        rw [readsAs_cons hdigit]
        split
        · rename_i hoverflow
          apply iff_of_false (by simp)
          rintro ⟨hreads, hn⟩
          exact absurd ((hsum.mp hoverflow).trans (le_of_readsAs hreads)) (Nat.not_le_of_gt hn)
        · rename_i hfits
          have hlow := Nat.lt_of_not_le (mt hsum.mpr hfits)
          have htmp : (resNum + alphabetSize ^ k * digit % 2 ^ 64) % 2 ^ 64 =
              resNum + alphabetSize ^ k * digit := by omega
          rw [htmp]
          exact ih (by omega) hlow

/-! ## Blocks -/

/-- The letters of a block have places for every number of its bytes. -/
theorem two_pow_le_encodedBlockSize {size encodedSize : Nat}
    (h : encodedBlockSizes[size]? = some encodedSize) :
    size ≤ fullBlockSize ∧ encodedSize ≤ fullEncodedBlockSize ∧
      2 ^ (8 * size) ≤ alphabetSize ^ encodedSize := by
  have hsizes : ∀ size < 9, size ≤ fullBlockSize ∧
      encodedBlockSizes.getD size 0 ≤ fullEncodedBlockSize ∧
      2 ^ (8 * size) ≤ alphabetSize ^ encodedBlockSizes.getD size 0 := by decide
  have hlt : size < 9 := (List.getElem?_eq_some_iff.mp h).1
  have hsize := hsizes size hlt
  rwa [List.getD_eq_getElem?_getD, h, Option.getD_some] at hsize

theorem encodeBlock_bigEndian {size encodedSize n : Nat} {letters : List UInt8}
    (hsize : encodedBlockSizes[size]? = some encodedSize) (hlength : letters.length = encodedSize)
    (hreads : ReadsAs letters.reverse 0 0 n) (hn : n < 2 ^ (8 * size)) :
    encodeBlock (bigEndian size n) = letters := by
  obtain ⟨digits, hdigits, hlt, hvalue⟩ := hreads
  rw [pow_zero, Nat.one_mul, Nat.zero_add] at hvalue
  have hcount : digits.length = encodedSize := by
    have hlengths := congrArg List.length hdigits
    rw [List.length_reverse, List.length_map, hlength] at hlengths
    exact hlengths.symm
  rw [encodeBlock, length_bigEndian, List.getD_eq_getElem?_getD, hsize, Option.getD_some,
    bigEndianValue_bigEndian hn, hvalue, ← hcount, encodeDigits_ofDigits hlt, ← hdigits,
    List.reverse_reverse]

theorem decodeBlock_eq_some {letters block : List UInt8} (h : decodeBlock letters = some block) :
    0 < block.length ∧ block.length ≤ fullBlockSize ∧
      decodedBlockSize letters.length = some block.length ∧ encodeBlock block = letters := by
  rw [decodeBlock] at h
  split at h
  · cases h
  · rename_i size hsize
    have hencoded := decodedBlockSize_iff.mp hsize
    obtain ⟨hfull, hlength, -⟩ := two_pow_le_encodedBlockSize hencoded
    split at h
    · cases h
    · rename_i hpos
      split at h
      · cases h
      · rename_i n hn
        have hletters := (decodeDigits_iff (k := 0) (n := n)
          (by rw [List.length_reverse, Nat.zero_add]; exact hlength) (Nat.two_pow_pos 64)).mp hn
        split at h
        · cases h
        · rename_i hfits
          obtain rfl := Option.some.inj h
          have hlt : n < 2 ^ (8 * size) := by
            rcases Nat.lt_or_eq_of_le hfull with hless | heq
            · rw [Nat.one_shiftLeft] at hfits
              by_contra hge
              exact hfits ⟨hless, Nat.le_of_not_lt hge⟩
            · rw [heq]
              exact hletters.2
          rw [length_bigEndian]
          exact ⟨Nat.pos_of_ne_zero hpos, hfull, hsize,
            encodeBlock_bigEndian hencoded rfl hletters.1 hlt⟩

theorem encodedBlockSizes_of_le {size : Nat} (h : size ≤ fullBlockSize) :
    encodedBlockSizes[size]? = some (encodedBlockSizes.getD size 0) := by
  have hlt : size < encodedBlockSizes.length := Nat.lt_succ_of_le h
  rw [List.getD_eq_getElem?_getD, List.getElem?_eq_getElem hlt, Option.getD_some]

theorem length_encodeBlock {block : List UInt8} (h : block.length ≤ fullBlockSize) :
    (encodeBlock block).length = encodedBlockSizes.getD block.length 0 := by
  have hsize := encodedBlockSizes_of_le h
  have hlt := (bigEndianValue_spec block).1.trans_le (two_pow_le_encodedBlockSize hsize).2.2
  obtain ⟨digits, hdigits, hlength, -⟩ := encodeDigits_eq hlt
  rw [encodeBlock, List.length_reverse, hdigits, List.length_map, hlength]

theorem decodeBlock_encodeBlock {block : List UInt8} (hpos : 0 < block.length)
    (hle : block.length ≤ fullBlockSize) : decodeBlock (encodeBlock block) = some block := by
  have hencoded := encodedBlockSizes_of_le hle
  obtain ⟨-, hfull, hpow⟩ := two_pow_le_encodedBlockSize hencoded
  have hvalue := (bigEndianValue_spec block).1
  have hlength := length_encodeBlock hle
  have hsize := decodedBlockSize_iff.mpr hencoded
  obtain ⟨digits, hdigits, hcount, hlt, hof⟩ := encodeDigits_eq (hvalue.trans_le hpow)
  have hreads : decodeDigits (encodeBlock block).reverse 0 1 = some (bigEndianValue block) := by
    apply (decodeDigits_iff (k := 0) _ (Nat.two_pow_pos 64)).mpr
    · refine ⟨⟨digits, ?_, hlt, ?_⟩, ?_⟩
      · rw [encodeBlock, List.reverse_reverse, hdigits]
      · rw [hof, pow_zero, Nat.one_mul, Nat.zero_add]
      · apply hvalue.trans_le
        apply Nat.pow_le_pow_right Nat.two_pos
        exact Nat.mul_le_mul_left 8 hle
    · rw [List.length_reverse, hlength, Nat.zero_add]
      exact hfull
  have hfits : ¬ (block.length < fullBlockSize ∧
      1 <<< (8 * block.length) ≤ bigEndianValue block) := by
    rw [Nat.one_shiftLeft]
    exact fun h => absurd h.2 (Nat.not_le_of_gt hvalue)
  rw [decodeBlock, hlength, hsize]
  simp only [if_neg hpos.ne', hreads, if_neg hfits, bigEndian_bigEndianValue]

/-! ## Texts -/

theorem lt_of_decodedBlockSize {encodedSize size : Nat}
    (h : decodedBlockSize encodedSize = some size) (hlt : encodedSize < fullEncodedBlockSize) :
    size < fullBlockSize := by
  have hencoded := decodedBlockSize_iff.mp h
  rcases Nat.lt_or_eq_of_le (two_pow_le_encodedBlockSize hencoded).1 with hless | rfl
  · exact hless
  · obtain rfl : fullEncodedBlockSize = encodedSize := Option.some.inj hencoded
    exact absurd hlt (Nat.lt_irrefl _)

theorem encodedBlockSize_lt {size : Nat} (h : size < fullBlockSize) :
    encodedBlockSizes.getD size 0 < fullEncodedBlockSize := by
  have hsizes : ∀ size < fullBlockSize, encodedBlockSizes.getD size 0 < fullEncodedBlockSize := by
    decide
  exact hsizes size h

theorem eq_nil_of_flatten_append_eq_nil {size : Nat} (hsize : 0 < size)
    {blocks : List (List UInt8)} {last : List UInt8}
    (hblocks : ∀ block ∈ blocks, block.length = size) (h : blocks.flatten ++ last = []) :
    blocks = [] ∧ last = [] := by
  obtain ⟨hflat, hlast⟩ := List.append_eq_nil_iff.mp h
  refine ⟨List.eq_nil_iff_forall_not_mem.mpr fun block hblock => ?_, hlast⟩
  have hlength := hblocks block hblock
  rw [List.flatten_eq_nil_iff.mp hflat block hblock] at hlength
  exact absurd hlength hsize.ne

theorem encode_blocks {blocks : List (List UInt8)} {last : List UInt8}
    (hblocks : ∀ block ∈ blocks, block.length = fullBlockSize)
    (hlast : last.length < fullBlockSize) :
    encode (blocks.flatten ++ last) =
      blocks.flatMap encodeBlock ++ if 0 < last.length then encodeBlock last else [] := by
  have hcut := blocks_flatten hblocks hlast
  rw [encode]
  split
  · rename_i hnil
    obtain ⟨rfl, rfl⟩ := eq_nil_of_flatten_append_eq_nil (by decide) hblocks hnil
    rfl
  · rw [hcut.1, hcut.2]

theorem decode_blocks {letters blocks : List (List UInt8)} {last : List UInt8} {size : Nat}
    (hletters : ∀ block ∈ letters, block.length = fullEncodedBlockSize)
    (hlast : last.length < fullEncodedBlockSize) (hsize : decodedBlockSize last.length = some size)
    (hblocks : letters.mapM decodeBlock = some blocks) :
    decode (letters.flatten ++ last) =
      if 0 < last.length then (decodeBlock last).map (blocks.flatten ++ ·)
      else some blocks.flatten := by
  have hcut := blocks_flatten hletters hlast
  rw [decode]
  split
  · rename_i hnil
    obtain ⟨rfl, rfl⟩ := eq_nil_of_flatten_append_eq_nil (by decide) hletters hnil
    obtain rfl : [] = blocks := Option.some.inj hblocks
    rfl
  · dsimp only
    rw [hcut.1, hcut.2, hsize, hblocks]

theorem mapM_decodeBlock {letters blocks : List (List UInt8)}
    (hletters : ∀ block ∈ letters, block.length = fullEncodedBlockSize)
    (h : letters.mapM decodeBlock = some blocks) :
    (∀ block ∈ blocks, block.length = fullBlockSize) ∧
      blocks.flatMap encodeBlock = letters.flatten := by
  induction letters generalizing blocks with
  | nil =>
      obtain rfl : [] = blocks := Option.some.inj h
      exact ⟨fun _ h => absurd h List.not_mem_nil, rfl⟩
  | cons first letters ih =>
      obtain ⟨hfirst, hletters⟩ := List.forall_mem_cons.mp hletters
      rw [List.mapM_cons] at h
      obtain ⟨block, hblock, h⟩ := Option.bind_eq_some_iff.mp h
      obtain ⟨rest, hrest, h⟩ := Option.bind_eq_some_iff.mp h
      obtain rfl : block :: rest = blocks := Option.some.inj h
      obtain ⟨-, -, hsize, hencode⟩ := decodeBlock_eq_some hblock
      obtain ⟨hfull, hflat⟩ := ih hletters hrest
      rw [hfirst] at hsize
      have hfullSize : decodedBlockSize fullEncodedBlockSize = some fullBlockSize :=
        decodedBlockSize_iff.mpr rfl
      rw [List.forall_mem_cons, List.flatMap_cons, List.flatten_cons, hflat, hencode]
      exact ⟨⟨Option.some.inj (hsize.symm.trans hfullSize), hfull⟩, rfl⟩

theorem mapM_encodeBlock {blocks : List (List UInt8)}
    (hblocks : ∀ block ∈ blocks, block.length = fullBlockSize) :
    (blocks.map encodeBlock).mapM decodeBlock = some blocks := by
  induction blocks with
  | nil => rfl
  | cons block blocks ih =>
      obtain ⟨hblock, hblocks⟩ := List.forall_mem_cons.mp hblocks
      rw [List.map_cons, List.mapM_cons, ih hblocks,
        decodeBlock_encodeBlock (hblock ▸ by decide) hblock.le]
      rfl

theorem encode_of_decode {enc data : List UInt8} (h : decode enc = some data) :
    encode data = enc := by
  rw [decode] at h
  split at h
  · rename_i hnil
    obtain rfl := Option.some.inj h
    exact hnil.symm
  · dsimp only at h
    split at h
    · cases h
    · rename_i size hsize
      split at h
      · cases h
      · rename_i blocks hblocks
        obtain ⟨hfull, hflat⟩ := mapM_decodeBlock (fun _ => length_of_mem_fullBlocks) hblocks
        have hshort : (lastBlock fullEncodedBlockSize enc).length < fullEncodedBlockSize := by
          rw [length_lastBlock]
          exact Nat.mod_lt _ (by decide)
        have hsizelt := lt_of_decodedBlockSize hsize hshort
        have hcut := flatten_fullBlocks (by decide : 0 < fullEncodedBlockSize) enc
        split at h
        · rename_i hpos
          obtain ⟨last, hlast, rfl⟩ := Option.map_eq_some_iff.mp h
          obtain ⟨hlastpos, -, hlastsize, hencode⟩ := decodeBlock_eq_some hlast
          obtain rfl := Option.some.inj (hsize.symm.trans hlastsize)
          rw [encode_blocks hfull hsizelt, if_pos hlastpos, hflat, hencode, hcut]
        · rename_i hzero
          have hnil := List.length_eq_zero_iff.mp (Nat.eq_zero_of_not_pos hzero)
          obtain rfl := Option.some.inj h
          rw [← List.append_nil blocks.flatten, encode_blocks hfull (by decide),
            if_neg (by decide), hflat, ← hnil, hcut]

theorem decode_encode (data : List UInt8) : decode (encode data) = some data := by
  have hshort : (lastBlock fullBlockSize data).length < fullBlockSize := by
    rw [length_lastBlock]
    exact Nat.mod_lt _ (by decide)
  have hblocks : ∀ block ∈ fullBlocks fullBlockSize data, block.length = fullBlockSize :=
    fun _ => length_of_mem_fullBlocks
  have hletters : ∀ letters ∈ (fullBlocks fullBlockSize data).map encodeBlock,
      letters.length = fullEncodedBlockSize := by
    intro letters hmem
    obtain ⟨block, hblock, rfl⟩ := List.mem_map.mp hmem
    rw [length_encodeBlock (hblocks block hblock).le, hblocks block hblock]
    rfl
  have hcut := flatten_fullBlocks (by decide : 0 < fullBlockSize) data
  have hencode := encode_blocks hblocks hshort
  rw [hcut, List.flatMap_def] at hencode
  rw [hencode]
  split
  · rename_i hpos
    have hlength := length_encodeBlock hshort.le
    have hsize := decodedBlockSize_iff.mpr (encodedBlockSizes_of_le hshort.le)
    have hback := decodeBlock_encodeBlock hpos hshort.le
    have hencodedPos : 0 < (encodeBlock (lastBlock fullBlockSize data)).length := by
      by_contra hzero
      rw [List.length_eq_zero_iff.mp (Nat.eq_zero_of_not_pos hzero)] at hback
      cases hback
    rw [decode_blocks hletters (hlength ▸ encodedBlockSize_lt hshort) (hlength ▸ hsize)
      (mapM_encodeBlock hblocks), if_pos hencodedPos, hback, Option.map_some, hcut]
  · rename_i hzero
    have hnil := List.length_eq_zero_iff.mp (Nat.eq_zero_of_not_pos hzero)
    rw [hnil, List.append_nil] at hcut
    have hsize : decodedBlockSize ([] : List UInt8).length = some 0 :=
      decodedBlockSize_iff.mpr rfl
    rw [decode_blocks hletters (by decide) hsize (mapM_encodeBlock hblocks), if_neg (by decide),
      hcut]

/-- Every text that is read is the one that is written, and all bytes are written so that they
are read again. -/
theorem decode_eq_some_iff (enc data : List UInt8) :
    decode enc = some data ↔ encode data = enc := by
  constructor
  · exact encode_of_decode
  · rintro rfl
    exact decode_encode data

end Miningcore.Base58
