import Miningcore.Blockchain.Cryptonote.AddressDecoding
import Miningcore.Blockchain.Cryptonote.CryptonoteJob
import Miningcore.Blockchain.Cryptonote.TreeHash

/-!
# Hashing blobs

A block is read from its blob. What is hashed of it is its header, the root of the hashes of its
transactions and their number. A worker writes a nonce to the hashing blob that it gets, and the
pool writes it to the block.

## Implementation notes

The reading of transactions, of parent blocks and of the pricing record of Salvium is a parameter,
and so is the hash function. Numbers that are malformed are read as far as they go, since the
source ignores the result.

## Main results

* `processShareWith_work`
* `computeBlockHash_eq_getBlockId`
* `eq_or_collide_of_convertBlob`
-/

namespace Miningcore.HashingBlob

open Foundation Cryptonote HashTree

/-! ## Blocks -/

inductive BlobType where
  | cryptonote
  | forknote1
  | forknote2
  | cryptonote2
  | ryo
  | loki
  | cryptonote3
  | aeon
  | cuckoo
  | xtnc
  | tube
  | xhv
  | xta
  | zephyr
  | xla
  | salvium
  | arqma
deriving DecidableEq

abbrev Hash := Vector UInt8 32

structure BlockLibrary where
  /-- The hash of a transaction and what stands behind it. -/
  readTransaction : BlobType → List UInt8 → Option (Hash × List UInt8)
  /-- A parent block as it is hashed, if that succeeds. -/
  readParentBlock : List UInt8 → Option (Option (List UInt8) × List UInt8)
  readSalviumRecord : List UInt8 → Option (List UInt8 × List UInt8)
  cnFastHash : List UInt8 → Hash

/-- A header with the bytes of what stands behind its nonce, as they are written again. -/
structure BlockHeader where
  majorVersion : ℕ
  minorVersion : ℕ
  timestamp : ℕ
  prevId : List UInt8
  nonce8 : List UInt8
  nonce : List UInt8
  record : List UInt8

structure BlockBody where
  parentBlock : Option (List UInt8)
  minerTx : Hash
  protocolTx : Option Hash
  txHashes : List Hash
  uncle : List UInt8

structure Block where
  header : BlockHeader
  body : BlockBody

namespace BlobType

def nonce8Size : BlobType → ℕ
  | cuckoo | tube | xta => 8
  | _ => 0

def nonceSize : BlobType → ℕ
  | forknote2 => 0
  | aeon => 8
  | _ => 4

def uncleSize : BlobType → ℕ
  | cryptonote3 => 32
  | _ => 0

/-- The size of what stands behind the nonce, but for the pricing record of Salvium. -/
def recordSize (majorVersion : ℕ) : BlobType → ℕ
  | xtnc | cuckoo => 128
  | tube => 160
  | xta => 192
  | xhv => 200
  | zephyr => if 4 ≤ majorVersion then 136 else if 3 ≤ majorVersion then 120 else 24
  | xla => if 13 ≤ majorVersion then 64 else 0
  | _ => 0

/-- Whether another front stands in the hashing blob than the header. -/
def hasOwnFront : BlobType → Bool
  | xtnc | cuckoo | tube | xta => true
  | _ => false

/-- Whether the nonce stands behind the previous block's hash in the hashing blob. -/
def hashesNonce : BlobType → Bool
  | forknote2 | xtnc | cuckoo | tube | xta => false
  | _ => true

/-- Whether nothing that is hashed stands behind the nonce of a header. -/
def hasShortBlob : BlobType → Bool
  | forknote2 | xhv | zephyr | xla | salvium => false
  | _ => true

end BlobType

def loadVarint (bits : ℕ) : List UInt8 → (shift i : ℕ) → ℕ × List UInt8
  | [], _, i => (i, [])
  | byte :: rest, shift, i =>
      if bits ≤ shift + 7 ∧ 1 <<< (bits - shift) ≤ byte.toNat then (i, rest)
      else if byte = 0 ∧ shift ≠ 0 then (i, rest)
      else
        let i := i ||| ((byte &&& 0x7f).toNat <<< shift) % 2 ^ bits
        if byte &&& 0x80 = 0 then (i, rest)
        else loadVarint bits rest (shift + 7) i

def readBlob (size : ℕ) (bytes : List UInt8) : Option (List UInt8 × List UInt8) :=
  if size ≤ bytes.length then some (bytes.take size, bytes.drop size) else none

def readHash (bytes : List UInt8) : Option (Hash × List UInt8) :=
  if h : 32 ≤ bytes.length then some (⟨(bytes.take 32).toArray, by simp [h]⟩, bytes.drop 32)
  else none

def readHashes : ℕ → List UInt8 → Option (List Hash × List UInt8)
  | 0, bytes => some ([], bytes)
  | cnt + 1, bytes => (readHash bytes).bind fun hash =>
      (readHashes cnt hash.2).map fun hashes => (hash.1 :: hashes.1, hashes.2)

/-- The list of hashes, of which there cannot be more than bytes. -/
def readTxHashes (bytes : List UInt8) : Option (List Hash × List UInt8) :=
  let cnt := loadVarint 64 bytes 0 0
  if cnt.2.length < cnt.1 then none else readHashes cnt.1 cnt.2

def writeHeader (type : BlobType) (header : BlockHeader) : List UInt8 :=
  writeVarint header.majorVersion ++ (writeVarint header.minorVersion ++
    ((if type = .forknote2 then [] else writeVarint header.timestamp) ++
      (header.prevId ++ (header.nonce8 ++ (header.nonce ++ header.record)))))

/-- The front of the hashing blob. -/
def hashedHeader (type : BlobType) (header : BlockHeader) : List UInt8 :=
  if type.hasOwnFront then
    header.majorVersion.toUInt8 :: header.minorVersion.toUInt8 ::
      (Bitcoin.littleEndian 8 header.timestamp ++ header.prevId)
  else writeHeader type header

def hashedCount (type : BlobType) (majorVersion : ℕ) (txHashes : List Hash) : ℕ :=
  txHashes.length + if type = .salvium ∧ 2 ≤ majorVersion then 2 else 1

def BlockBody.txsIds (body : BlockBody) : List Hash :=
  body.minerTx :: (body.protocolTx.toList ++ body.txHashes)

namespace BlockLibrary

variable (library : BlockLibrary) (type : BlobType)

/-- What stands behind the nonce: a cycle, a pricing record or a signature. The first record of
Zephyr is dropped and written as zeros. -/
def readRecord (majorVersion : ℕ) (bytes : List UInt8) : Option (List UInt8 × List UInt8) :=
  match type with
  | .xtnc | .cuckoo => readBlob 128 bytes
  | .tube => readBlob 160 bytes
  | .xta => readBlob 192 bytes
  | .xhv => readBlob 200 bytes
  | .zephyr =>
      if 4 ≤ majorVersion then readBlob 136 bytes
      else if 3 ≤ majorVersion then readBlob 120 bytes
      else (readBlob 24 bytes).map fun record => (List.replicate 24 0, record.2)
  | .xla => if 13 ≤ majorVersion then readBlob 64 bytes else some ([], bytes)
  | .salvium =>
      if 255 ≤ majorVersion then library.readSalviumRecord bytes else some ([], bytes)
  | _ => some ([], bytes)

def readHeader (bytes : List UInt8) : Option (BlockHeader × List UInt8) :=
  let majorVersion := loadVarint 8 bytes 0 0
  let minorVersion := loadVarint 8 majorVersion.2 0 0
  let timestamp :=
    if type = .forknote2 then (0, minorVersion.2) else loadVarint 64 minorVersion.2 0 0
  (readBlob 32 timestamp.2).bind fun prevId =>
    (readBlob type.nonce8Size prevId.2).bind fun nonce8 =>
      (readBlob type.nonceSize nonce8.2).bind fun nonce =>
        (library.readRecord type majorVersion.1 nonce.2).map fun record =>
          ({ majorVersion := majorVersion.1
             minorVersion := minorVersion.1
             timestamp := timestamp.1
             prevId := prevId.1
             nonce8 := nonce8.1
             nonce := nonce.1
             record := record.1 }, record.2)

def readProtocolTx (bytes : List UInt8) : Option (Option Hash × List UInt8) :=
  if type = .salvium then
    (library.readTransaction type bytes).map fun protocolTx => (some protocolTx.1, protocolTx.2)
  else some (none, bytes)

/-- The rest of a block, which ends where the blob does. -/
def readBody (bytes : List UInt8) : Option BlockBody :=
  (if type = .forknote2 then library.readParentBlock bytes else some (none, bytes)).bind
    fun parentBlock =>
      (library.readTransaction type parentBlock.2).bind fun minerTx =>
        (library.readProtocolTx type minerTx.2).bind fun protocolTx =>
          (readTxHashes protocolTx.2).bind fun txHashes =>
            (readBlob type.uncleSize txHashes.2).bind fun uncle =>
              if uncle.2 = [] then
                some
                  { parentBlock := parentBlock.1
                    minerTx := minerTx.1
                    protocolTx := protocolTx.1
                    txHashes := txHashes.1
                    uncle := uncle.1 }
              else none

def parseAndValidateBlockFromBlob (blob : List UInt8) : Option Block :=
  (library.readHeader type blob).bind fun header =>
    (library.readBody type header.2).map fun body => { header := header.1, body := body }

def hashPair (a b : Hash) : Hash := library.cnFastHash (a.toList ++ b.toList)

def getTxTreeHash (body : BlockBody) : Option Hash := treeHash library.hashPair body.txsIds

def getBlockHashingBlob (block : Block) : Option (List UInt8) :=
  (library.getTxTreeHash block.body).map fun treeRootHash =>
    hashedHeader type block.header ++ (treeRootHash.toList ++
      (writeVarint (hashedCount type block.header.majorVersion block.body.txHashes) ++
        (block.body.uncle ++ block.header.nonce8)))

def getBlockHash (block : Block) : Option Hash :=
  (library.getBlockHashingBlob type block).bind fun blob =>
    (if type = .forknote2 then block.body.parentBlock else some []).map fun parentBlob =>
      library.cnFastHash (writeVarint (blob ++ parentBlob).length ++ (blob ++ parentBlob))

def convertBlob (input : List UInt8) : Option (List UInt8) :=
  (library.parseAndValidateBlockFromBlob type input).bind (library.getBlockHashingBlob type)

/-- The id of a block. The space for it stays zero where there is none. -/
def getBlockId (input : List UInt8) : List UInt8 :=
  ((library.parseAndValidateBlockFromBlob type input).bind (library.getBlockHash type)).elim
    (List.replicate 32 0) Vector.toList

/-- A pool that calls the native functions. -/
def nativePool (pool : CryptonotePool) : CryptonotePool :=
  { pool with
    convertBlob := library.convertBlob type
    getBlockId := library.getBlockId type
    cryptonightHashFast := fun bytes => (library.cnFastHash bytes).toList }

end BlockLibrary

/-- The hashing blob that a worker hashes for a nonce. -/
def minerWork (pool : CryptonotePool) (job : CryptonoteJob) (workerExtraNonce : ℕ)
    (nonce : List Char) : Option (List UInt8) :=
  (job.encodeBlob pool workerExtraNonce).bind fun blob =>
    copyTo (hexToByteArray nonce) (hexToByteArray blob) blobNonceOffset

/-! ## Reading what was written -/

theorem loadVarint_of_readVarint {bits : ℕ} {bytes : List UInt8} {shift read i v r : ℕ}
    (h : readVarint bits bytes shift read i = .ok (v, r)) :
    read ≤ r ∧ loadVarint bits bytes shift i = (v, bytes.drop (r - read)) := by
  induction bytes generalizing shift read i with
  | nil =>
      cases h
      exact ⟨le_rfl, by rw [loadVarint, List.drop_nil]⟩
  | cons byte rest ih =>
      rw [readVarint] at h
      rw [loadVarint]
      split at h
      · cases h
      · rename_i hfits
        rw [if_neg hfits]
        split at h
        · cases h
        · rename_i hcanonical
          rw [if_neg hcanonical]
          dsimp only at h ⊢
          split at h
          · rename_i hlast
            cases h
            rw [if_pos hlast, Nat.add_sub_cancel_left]
            exact ⟨Nat.le_add_right read 1, rfl⟩
          · rename_i hmore
            obtain ⟨hle, hload⟩ := ih h
            have hdrop : r - read = r - (read + 1) + 1 := by omega
            rw [if_neg hmore, hload, hdrop, List.drop_succ_cons]
            exact ⟨Nat.le_of_succ_le hle, rfl⟩

/-- A number that fits is read as it was written. -/
theorem loadVarint_writeVarint {bits n : ℕ} (hn : n < 2 ^ bits) (rest : List UInt8) :
    loadVarint bits (writeVarint n ++ rest) 0 0 = (n, rest) := by
  have hread := readVarint_writeVarint n (Nat.zero_le bits) hn (fun h => absurd rfl h) rest 0 0
  obtain ⟨-, hload⟩ := loadVarint_of_readVarint hread
  rw [hload, Nat.zero_or, Nat.shiftLeft_zero, Nat.zero_add, Nat.sub_zero, List.drop_left]

theorem loadVarint_lt {bits : ℕ} (bytes : List UInt8) (shift : ℕ) {i : ℕ} (hi : i < 2 ^ bits) :
    (loadVarint bits bytes shift i).1 < 2 ^ bits := by
  induction bytes generalizing shift i with
  | nil => exact hi
  | cons byte rest ih =>
      have hor : i ||| ((byte &&& 0x7f).toNat <<< shift) % 2 ^ bits < 2 ^ bits :=
        Nat.or_lt_two_pow hi (Nat.mod_lt _ (Nat.two_pow_pos bits))
      rw [loadVarint]
      split
      · exact hi
      · split
        · exact hi
        · dsimp only
          split
          · exact hor
          · exact ih (shift + 7) hor

theorem length_writeVarint_le {n k : ℕ} (h : n < 2 ^ (7 * (k + 1))) :
    (writeVarint n).length ≤ k + 1 := by
  induction k generalizing n with
  | zero => rw [writeVarint_of_lt h, List.length_singleton]
  | succ k ih =>
      obtain hlt | hge := Nat.lt_or_ge n 0x80
      · rw [writeVarint_of_lt hlt, List.length_singleton]
        exact Nat.le_add_left 1 (k + 1)
      · have hdiv : n / 0x80 < 2 ^ (7 * (k + 1)) := by
          apply Nat.div_lt_of_lt_mul
          rw [Nat.mul_succ, Nat.pow_add, Nat.mul_comm] at h
          exact h
        rw [writeVarint_of_ge hge, List.length_cons]
        exact Nat.succ_le_succ (ih hdiv)

theorem length_writeVarint {n k : ℕ} (hle : 2 ^ (7 * k) ≤ n) (hlt : n < 2 ^ (7 * (k + 1))) :
    (writeVarint n).length = k + 1 := by
  induction k generalizing n with
  | zero => rw [writeVarint_of_lt hlt, List.length_singleton]
  | succ k ih =>
      rw [Nat.mul_succ, Nat.pow_add] at hle hlt
      have hge : 0x80 ≤ n := (Nat.le_mul_of_pos_left _ (Nat.two_pow_pos (7 * k))).trans hle
      have hlow : 2 ^ (7 * k) ≤ n / 0x80 := (Nat.le_div_iff_mul_le (by decide)).mpr hle
      have hhigh : n / 0x80 < 2 ^ (7 * (k + 1)) := by
        apply Nat.div_lt_of_lt_mul
        rw [Nat.mul_comm]
        exact hlt
      rw [writeVarint_of_ge hge, List.length_cons, ih hlow hhigh]

theorem readBlob_append {size : ℕ} {front : List UInt8} (h : front.length = size)
    (rest : List UInt8) : readBlob size (front ++ rest) = some (front, rest) := by
  subst h
  rw [readBlob, if_pos (List.length_append ▸ Nat.le_add_right _ _), List.take_left, List.drop_left]

theorem readBlob_add {front : List UInt8} {size : ℕ} (h : front.length = size) (n : ℕ)
    (rest : List UInt8) :
    readBlob (size + n) (front ++ rest) =
      (readBlob n rest).map fun blob => (front ++ blob.1, blob.2) := by
  subst h
  rw [readBlob, readBlob, List.length_append, List.take_length_add_append,
    List.drop_length_add_append]
  split
  · rename_i hle
    rw [if_pos (Nat.le_of_add_le_add_left hle), Option.map_some]
  · rename_i hgt
    rw [if_neg fun hle => hgt (Nat.add_le_add_left hle _), Option.map_none]

/-! ## The nonce of the hashing blob -/

/-- The front of a header that has the nonce where the pool writes it. -/
structure HeaderFront where
  majorVersion : ℕ
  minorVersion : ℕ
  timestamp : ℕ
  prevId : List UInt8
  majorVersion_lt : majorVersion < 2 ^ 7
  minorVersion_lt : minorVersion < 2 ^ 7
  le_timestamp : 2 ^ 28 ≤ timestamp
  timestamp_lt : timestamp < 2 ^ 35
  length_prevId : prevId.length = 32

namespace HeaderFront

variable (front : HeaderFront)

def bytes : List UInt8 :=
  writeVarint front.majorVersion ++ (writeVarint front.minorVersion ++
    (writeVarint front.timestamp ++ front.prevId))

def header (nonce record : List UInt8) : BlockHeader where
  majorVersion := front.majorVersion
  minorVersion := front.minorVersion
  timestamp := front.timestamp
  prevId := front.prevId
  nonce8 := []
  nonce := nonce
  record := record

theorem length_bytes : front.bytes.length = blobNonceOffset := by
  have htimestamp := length_writeVarint (k := 4) front.le_timestamp front.timestamp_lt
  rw [bytes, List.length_append, List.length_append, List.length_append, htimestamp,
    writeVarint_of_lt front.majorVersion_lt, writeVarint_of_lt front.minorVersion_lt,
    front.length_prevId]
  rfl

end HeaderFront

/-- What the types with a nonce in the hashing blob have in common. -/
structure HashesNonce (type : BlobType) : Prop where
  ne_forknote2 : type ≠ .forknote2
  nonce8Size_eq : type.nonce8Size = 0
  hasOwnFront_eq : type.hasOwnFront = false
  le_nonceSize : 4 ≤ type.nonceSize

theorem hashesNonce {type : BlobType} (h : type.hashesNonce) : HashesNonce type := by
  cases type
  all_goals first
    | exact ⟨by decide, rfl, rfl, by decide⟩
    | exact absurd h (by decide)

section nonces

variable {library : BlockLibrary} {type : BlobType} (htype : type.hashesNonce)
  (front : HeaderFront)

include htype

theorem readHeader_front {nonce : List UInt8} (hnonce : nonce.length = 4) (rest : List UInt8) :
    library.readHeader type (front.bytes ++ (nonce ++ rest)) =
      (readBlob (type.nonceSize - 4) rest).bind fun high =>
        (library.readRecord type front.majorVersion high.2).map fun record =>
          (front.header (nonce ++ high.1) record.1, record.2) := by
  obtain ⟨hne, hnonce8, -, hsize⟩ := hashesNonce htype
  have hmajor := front.majorVersion_lt
  have hminor := front.minorVersion_lt
  have htimestamp := front.timestamp_lt
  have hread : readBlob type.nonceSize (nonce ++ rest) =
      (readBlob (type.nonceSize - 4) rest).map fun high => (nonce ++ high.1, high.2) := by
    rw [← readBlob_add hnonce, Nat.add_sub_cancel' hsize]
  simp only [BlockLibrary.readHeader, HeaderFront.bytes, List.append_assoc]
  rw [loadVarint_writeVarint (by omega)]
  dsimp only
  rw [loadVarint_writeVarint (by omega)]
  dsimp only
  rw [if_neg hne, loadVarint_writeVarint (by omega)]
  dsimp only
  rw [readBlob_append front.length_prevId, Option.bind_some, hnonce8]
  have hnone : readBlob 0 (nonce ++ rest) = some ([], nonce ++ rest) :=
    readBlob_append (List.length_nil (α := UInt8)) (nonce ++ rest)
  dsimp only
  rw [hnone, Option.bind_some]
  dsimp only
  rw [hread, Option.bind_map]
  rfl

/-- The conversion carries the nonce over and nothing else of the blob depends on it. -/
theorem exists_convertBlob (rest : List UInt8) :
    ∃ result : Option (List UInt8), ∀ nonce : List UInt8, nonce.length = 4 →
      library.convertBlob type (front.bytes ++ (nonce ++ rest)) =
        result.map fun rest => front.bytes ++ (nonce ++ rest) := by
  obtain ⟨hne, -, hown, -⟩ := hashesNonce htype
  refine ⟨(readBlob (type.nonceSize - 4) rest).bind fun high =>
    (library.readRecord type front.majorVersion high.2).bind fun record =>
      (library.readBody type record.2).bind fun body =>
        (library.getTxTreeHash body).map fun treeRootHash =>
          high.1 ++ (record.1 ++ (treeRootHash.toList ++
            (writeVarint (hashedCount type front.majorVersion body.txHashes) ++ body.uncle))),
    fun nonce hnonce => ?_⟩
  rw [BlockLibrary.convertBlob, BlockLibrary.parseAndValidateBlockFromBlob,
    readHeader_front htype front hnonce]
  cases readBlob (type.nonceSize - 4) rest with
  | none => rfl
  | some high =>
      rw [Option.bind_some, Option.bind_some]
      cases library.readRecord type front.majorVersion high.2 with
      | none => rfl
      | some record =>
          rw [Option.map_some, Option.bind_some, Option.bind_some]
          cases library.readBody type record.2 with
          | none => rfl
          | some body =>
              rw [Option.map_some, Option.bind_some, Option.bind_some,
                BlockLibrary.getBlockHashingBlob]
              dsimp only
              cases library.getTxTreeHash body with
              | none => rfl
              | some treeRootHash =>
                  rw [Option.map_some, Option.map_some, Option.map_some, hashedHeader, hown,
                    if_neg Bool.false_ne_true, writeHeader, if_neg hne, HeaderFront.bytes]
                  simp only [HeaderFront.header, List.append_assoc, List.nil_append,
                    List.append_nil]

end nonces

theorem copyTo_front (front : HeaderFront) {old new : List UInt8} (hold : old.length = 4)
    (hnew : new.length = 4) (rest : List UInt8) :
    copyTo new (front.bytes ++ (old ++ rest)) blobNonceOffset =
      some (front.bytes ++ (new ++ rest)) := by
  have hskip : blobNonceOffset + new.length = (front.bytes ++ old).length := by
    rw [List.length_append, front.length_bytes, hold, hnew]
  have hle : blobNonceOffset + new.length ≤ (front.bytes ++ (old ++ rest)).length := by
    simp only [List.length_append, front.length_bytes, hold, hnew]
    omega
  have hdrop : (front.bytes ++ (old ++ rest)).drop (blobNonceOffset + new.length) = rest := by
    rw [hskip, ← List.append_assoc, List.drop_left]
  have htake : (front.bytes ++ (old ++ rest)).take blobNonceOffset = front.bytes := by
    rw [← front.length_bytes, List.take_left]
  rw [copyTo, if_pos hle, hdrop, htake, List.append_assoc]

/-- The extranonce leaves the front of the template alone. -/
theorem exists_of_workerBlob {job : CryptonoteJob} {front : HeaderFront} {rest : List UInt8}
    (hfront : job.blobTemplate = front.bytes ++ rest)
    (hreserved : blobNonceOffset + 4 ≤ job.blockTemplate.reservedOffset) {workerExtraNonce : ℕ}
    {blob : List UInt8} (h : job.workerBlob workerExtraNonce = some blob) :
    ∃ nonce rest, nonce.length = 4 ∧ blob = front.bytes ++ (nonce ++ rest) := by
  rw [CryptonoteJob.workerBlob, copyTo] at h
  split at h
  · rename_i hle
    cases h
    rw [hfront, List.length_append, front.length_bytes] at hle
    obtain ⟨n, hn⟩ := Nat.exists_eq_add_of_le hreserved
    rw [hn] at hle
    have htake : job.blobTemplate.take job.blockTemplate.reservedOffset =
        front.bytes ++ (rest.take 4 ++ (rest.drop 4).take n) := by
      rw [hfront, hn, Nat.add_assoc, ← front.length_bytes, List.take_length_add_append,
        List.take_add]
    refine ⟨rest.take 4, (rest.drop 4).take n ++ (Cryptonote.bigEndian workerExtraNonce ++
      job.blobTemplate.drop
        (job.blockTemplate.reservedOffset + (Cryptonote.bigEndian workerExtraNonce).length)),
      ?_, ?_⟩
    · rw [List.length_take]
      omega
    · rw [htake]
      simp only [List.append_assoc]
  · cases h

theorem length_hexToByteArray_nonce {nonce : List Char} (h : matchesDigits 8 nonce) :
    (hexToByteArray nonce).length = 4 ∧ nonce ≠ [] := by
  obtain ⟨digits, hlength, hlower, hnonce⟩ := matchesDigits_iff.mp h
  have hdigits : ∀ c ∈ digits, isHexDigit c := fun c hc =>
    isHexDigit_of_isLowerHexDigit (hlower c hc)
  have hne : digits ≠ [] := by
    rw [← List.length_pos_iff, hlength]
    decide
  have hbytes : (hexToByteArray digits).length = 4 := by
    rw [hexToByteArray_of_isHexDigit hdigits, length_pairBytes, hlength]
  obtain rfl | rfl := hnonce
  · exact ⟨hbytes, hne⟩
  · have heven : Even digits.length := by
      rw [hlength]
      decide
    rw [hexToByteArray_lineFeed hdigits heven]
    exact ⟨hbytes, List.append_ne_nil_of_left_ne_nil hne _⟩

/-- What the pool checks of a share is the hash of what the worker hashed: the share is refused for
its hash exactly if the worker sends another one. -/
theorem processShareWith_work (library : BlockLibrary) {type : BlobType} (htype : type.hashesNonce)
    (pool : CryptonotePool) (job : CryptonoteJob) (front : HeaderFront) (rest : List UInt8)
    (hfront : job.blobTemplate = front.bytes ++ rest)
    (hreserved : blobNonceOffset + 4 ≤ job.blockTemplate.reservedOffset)
    (hash : List UInt8 → List UInt8) (badHash : List Char → List Char → String)
    (blockHash : List UInt8 → List UInt8 → List UInt8) (context : WorkerDifficulty)
    {nonce : List Char} (hnonce : matchesDigits 8 nonce) {workerExtraNonce : ℕ}
    (hextra : workerExtraNonce ≠ 0) {workerHash : List Char} (hworker : workerHash ≠ []) :
    job.processShareWith (library.nativePool type pool) hash badHash blockHash context nonce
        workerExtraNonce workerHash =
      match (job.workerBlob workerExtraNonce).bind fun blob =>
          copyTo (hexToByteArray nonce) blob blobNonceOffset with
      | none => .error .argument
      | some blob =>
          match minerWork (library.nativePool type pool) job workerExtraNonce nonce with
          | none => .error (.stratum .minusOne "malformed blob")
          | some work =>
              if toHexString (hash work) ≠ workerHash then
                .error (.stratum .minusOne (badHash (toHexString (hash work)) workerHash))
              else
                job.hashShare (library.nativePool type pool) context (hash work)
                  (blockHash blob work) blob := by
  obtain ⟨hlength, hne⟩ := length_hexToByteArray_nonce hnonce
  have hargument : ¬ (nonce = [] ∨ workerHash = [] ∨ workerExtraNonce = 0) := by
    rintro (h | h | h)
    · exact hne h
    · exact hworker h
    · exact hextra h
  rw [CryptonoteJob.processShareWith, if_neg hargument, hnonce, if_neg (by decide)]
  cases hblob : job.workerBlob workerExtraNonce with
  | none => rfl
  | some blob =>
      obtain ⟨old, rest, hold, rfl⟩ := exists_of_workerBlob hfront hreserved hblob
      obtain ⟨result, hresult⟩ := exists_convertBlob htype front rest
      rw [Option.bind_some, copyTo_front front hold hlength]
      dsimp only
      have hconvert : (library.nativePool type pool).convertBlob = library.convertBlob type := rfl
      rw [minerWork, CryptonoteJob.encodeBlob, hblob, Option.bind_some, hconvert,
        hresult old hold, hresult _ hlength]
      cases result with
      | none => rfl
      | some converted =>
          rw [Option.map_some, Option.map_some, Option.map_some, Option.bind_some,
            hexToByteArray_toHexString, copyTo_front front hold hlength]

namespace OneTransaction

/-- A transaction is fourteen bytes long. -/
def library : BlockLibrary where
  readTransaction _ bytes :=
    (readBlob 14 bytes).map fun transaction => (Vector.replicate 32 1, transaction.2)
  readParentBlock _ := none
  readSalviumRecord _ := none
  cnFastHash bytes := Vector.replicate 32 bytes.length.toUInt8

def front : HeaderFront where
  majorVersion := 16
  minorVersion := 16
  timestamp := 1700000000
  prevId := List.replicate 32 2
  majorVersion_lt := by decide
  minorVersion_lt := by decide
  le_timestamp := by decide
  timestamp_lt := by decide
  length_prevId := List.length_replicate

def pool : CryptonotePool where
  coin := .cryptonote (fun _ bytes _ => bytes) 0
  instanceId := [1, 2, 3]
  convertBlob _ := none
  getBlockId _ := []
  cryptonightHashFast bytes := bytes
  isBlockCandidate _ _ := true
  isLow _ _ := false
  shareDiff _ := ""

/-- The space for the extranonce is in the transaction. -/
def job : CryptonoteJob where
  blockTemplate :=
    { blob := []
      difficulty := 1
      height := 1
      seedHash := []
      reservedOffset := 46 }
  blobTemplate := front.bytes ++ (List.replicate 4 0 ++ List.replicate 15 0)
  prevHash := []

def context : WorkerDifficulty where
  difficulty := 1

/-- The block of a template without a nonce. -/
def blob : List UInt8 :=
  [16, 16, 128, 226, 207, 170, 6] ++ (List.replicate 32 2 ++ List.replicate 19 0)

theorem isSome_convertBlob :
    ((library.nativePool .cryptonote pool).convertBlob blob).isSome := by
  decide

def blobConverted : List UInt8 :=
  ((library.nativePool .cryptonote pool).convertBlob blob).get isSome_convertBlob

theorem isSome_block : (library.parseAndValidateBlockFromBlob .cryptonote blob).isSome := by
  decide

def block : Block := (library.parseAndValidateBlockFromBlob .cryptonote blob).get isSome_block

/-- The same block with another transaction, which the library gives the same hash. -/
def otherBlob : List UInt8 :=
  [16, 16, 128, 226, 207, 170, 6] ++
    (List.replicate 32 2 ++ (List.replicate 4 0 ++ (List.replicate 14 1 ++ [0])))

end OneTransaction

theorem processShareWith_work_oneTransaction :
    OneTransaction.job.processShareWith (OneTransaction.library.nativePool .cryptonote
        OneTransaction.pool) List.reverse (fun _ _ => "bad hash") (fun blob _ => blob)
        OneTransaction.context "0a0b0c0d".toList 1 "00".toList =
      match (OneTransaction.job.workerBlob 1).bind fun blob =>
          copyTo (hexToByteArray "0a0b0c0d".toList) blob blobNonceOffset with
      | none => .error .argument
      | some blob =>
          match minerWork (OneTransaction.library.nativePool .cryptonote OneTransaction.pool)
              OneTransaction.job 1 "0a0b0c0d".toList with
          | none => .error (.stratum .minusOne "malformed blob")
          | some work =>
              if toHexString work.reverse ≠ "00".toList then
                .error (.stratum .minusOne "bad hash")
              else
                OneTransaction.job.hashShare
                  (OneTransaction.library.nativePool .cryptonote OneTransaction.pool)
                  OneTransaction.context work.reverse blob blob :=
  processShareWith_work OneTransaction.library rfl OneTransaction.pool OneTransaction.job
    OneTransaction.front _ rfl (by decide) List.reverse (fun _ _ => "bad hash") (fun blob _ => blob)
    OneTransaction.context (by decide) (by decide) (by decide)

/-! ## Block ids -/

theorem length_readHashes {cnt : ℕ} {bytes rest : List UInt8} {hashes : List Hash}
    (h : readHashes cnt bytes = some (hashes, rest)) : hashes.length = cnt := by
  induction cnt generalizing bytes hashes with
  | zero =>
      cases h
      rfl
  | succ cnt ih =>
      obtain ⟨hash, -, hmany⟩ := Option.bind_eq_some_iff.mp h
      obtain ⟨hashes', hrest, heq⟩ := Option.map_eq_some_iff.mp hmany
      cases heq
      rw [List.length_cons, ih hrest]

theorem length_of_readBlob {size : ℕ} {bytes : List UInt8} {blob : List UInt8 × List UInt8}
    (h : readBlob size bytes = some blob) : blob.1.length = size := by
  rw [readBlob] at h
  split at h
  · rename_i hle
    cases h
    rw [List.length_take, min_eq_left hle]
  · cases h

theorem length_of_readRecord {library : BlockLibrary} {type : BlobType} (hne : type ≠ .salvium)
    {majorVersion : ℕ} {bytes : List UInt8} {record : List UInt8 × List UInt8}
    (h : library.readRecord type majorVersion bytes = some record) :
    record.1.length = type.recordSize majorVersion := by
  cases type with
  | salvium => exact absurd rfl hne
  | zephyr =>
      rw [BlockLibrary.readRecord] at h
      rw [BlobType.recordSize]
      split at h
      · rename_i hfour
        rw [if_pos hfour, length_of_readBlob h]
      · rename_i hfour
        rw [if_neg hfour]
        split at h
        · rename_i hthree
          rw [if_pos hthree, length_of_readBlob h]
        · rename_i hthree
          obtain ⟨dropped, -, rfl⟩ := Option.map_eq_some_iff.mp h
          rw [if_neg hthree, List.length_replicate]
  | xla =>
      rw [BlockLibrary.readRecord] at h
      rw [BlobType.recordSize]
      split at h
      · rename_i hsigned
        rw [if_pos hsigned, length_of_readBlob h]
      · rename_i hunsigned
        cases h
        rw [if_neg hunsigned, List.length_nil]
  | _ => exact length_of_readBlob h

/-- The fields of a header that was read. -/
structure HeaderSizes (type : BlobType) (header : BlockHeader) : Prop where
  majorVersion_lt : header.majorVersion < 2 ^ 8
  minorVersion_lt : header.minorVersion < 2 ^ 8
  timestamp_lt : header.timestamp < 2 ^ 64
  length_prevId : header.prevId.length = 32
  length_nonce8 : header.nonce8.length = type.nonce8Size
  length_nonce : header.nonce.length = type.nonceSize
  length_record : type ≠ .salvium →
    header.record.length = type.recordSize header.majorVersion

theorem headerSizes {library : BlockLibrary} {type : BlobType} {bytes : List UInt8}
    {header : BlockHeader × List UInt8} (h : library.readHeader type bytes = some header) :
    HeaderSizes type header.1 := by
  obtain ⟨prevId, hprevId, h⟩ := Option.bind_eq_some_iff.mp h
  obtain ⟨nonce8, hnonce8, h⟩ := Option.bind_eq_some_iff.mp h
  obtain ⟨nonce, hnonce, h⟩ := Option.bind_eq_some_iff.mp h
  obtain ⟨record, hrecord, rfl⟩ := Option.map_eq_some_iff.mp h
  refine ⟨loadVarint_lt _ 0 (by decide), loadVarint_lt _ 0 (by decide), ?_,
    length_of_readBlob hprevId, length_of_readBlob hnonce8, length_of_readBlob hnonce, ?_⟩
  · dsimp only
    split
    · exact Nat.two_pow_pos 64
    · exact loadVarint_lt _ 0 (by decide)
  · exact fun hne => length_of_readRecord hne hrecord

theorem of_readBody {library : BlockLibrary} {type : BlobType} {bytes : List UInt8}
    {body : BlockBody} (h : library.readBody type bytes = some body) :
    body.txHashes.length < 2 ^ 64 ∧ body.uncle.length = type.uncleSize ∧
      (type ≠ .salvium → body.protocolTx = none) := by
  obtain ⟨parentBlock, -, h⟩ := Option.bind_eq_some_iff.mp h
  obtain ⟨minerTx, -, h⟩ := Option.bind_eq_some_iff.mp h
  obtain ⟨protocolTx, hprotocolTx, h⟩ := Option.bind_eq_some_iff.mp h
  obtain ⟨txHashes, htxHashes, h⟩ := Option.bind_eq_some_iff.mp h
  obtain ⟨uncle, huncle, h⟩ := Option.bind_eq_some_iff.mp h
  split at h
  · cases h
    refine ⟨?_, length_of_readBlob huncle, fun hne => ?_⟩
    · rw [readTxHashes] at htxHashes
      split at htxHashes
      · cases htxHashes
      · rw [length_readHashes htxHashes]
        exact loadVarint_lt _ 0 (by decide)
    · rw [BlockLibrary.readProtocolTx, if_neg hne] at hprotocolTx
      exact (congrArg Prod.fst (Option.some.inj hprotocolTx)).symm
  · cases h

theorem of_parseAndValidateBlockFromBlob {library : BlockLibrary} {type : BlobType}
    {blob : List UInt8} {block : Block}
    (h : library.parseAndValidateBlockFromBlob type blob = some block) :
    HeaderSizes type block.header ∧ block.body.txHashes.length < 2 ^ 64 ∧
      block.body.uncle.length = type.uncleSize ∧
        (type ≠ .salvium → block.body.protocolTx = none) := by
  obtain ⟨header, hheader, h⟩ := Option.bind_eq_some_iff.mp h
  obtain ⟨body, hbody, rfl⟩ := Option.map_eq_some_iff.mp h
  exact ⟨headerSizes hheader, of_readBody hbody⟩

theorem BlobType.sizes_le (type : BlobType) :
    type.uncleSize + type.nonce8Size + type.nonce8Size + type.nonceSize ≤ 36 := by
  cases type
  all_goals decide

theorem BlobType.sizes_le_of_hasOwnFront {type : BlobType} (hown : type.hasOwnFront) :
    type.uncleSize + type.nonce8Size ≤ 8 := by
  cases type
  all_goals first
    | decide
    | exact absurd hown (by decide)

theorem BlobType.recordSize_eq_zero {type : BlobType} (hshort : type.hasShortBlob)
    (hown : type.hasOwnFront = false) (majorVersion : ℕ) : type.recordSize majorVersion = 0 := by
  cases type
  all_goals first
    | rfl
    | exact absurd hshort (by decide)
    | exact absurd hown (by decide)

theorem length_hashedHeader_le {type : BlobType} {header : BlockHeader}
    (hshort : type.hasShortBlob) (h : HeaderSizes type header) :
    (hashedHeader type header).length + type.uncleSize + type.nonce8Size ≤ 82 := by
  have hmajor := length_writeVarint_le (k := 1)
    (h.majorVersion_lt.trans (by decide : 2 ^ 8 < 2 ^ (7 * 2)))
  have hminor := length_writeVarint_le (k := 1)
    (h.minorVersion_lt.trans (by decide : 2 ^ 8 < 2 ^ (7 * 2)))
  have htimestamp := length_writeVarint_le (k := 9)
    (h.timestamp_lt.trans (by decide : 2 ^ 64 < 2 ^ (7 * 10)))
  have hnonce8 := h.length_nonce8
  have hnonce := h.length_nonce
  have hprevId := h.length_prevId
  rw [hashedHeader]
  split
  · rename_i hown
    have hsizes := BlobType.sizes_le_of_hasOwnFront hown
    rw [List.length_cons, List.length_cons, List.length_append, Bitcoin.length_littleEndian,
      hprevId]
    omega
  · rename_i hown
    rw [Bool.not_eq_true] at hown
    have hrecord : header.record.length = 0 := by
      rw [h.length_record (by rintro rfl; cases hshort)]
      exact BlobType.recordSize_eq_zero hshort hown _
    have hsizes := type.sizes_le
    have hwritten :
        (if type = .forknote2 then [] else writeVarint header.timestamp).length ≤ 10 := by
      split
      · exact Nat.zero_le 10
      · exact htimestamp
    rw [writeHeader]
    simp only [List.length_append]
    omega

/-- The hash that a share is given for its block is the id of the block. -/
theorem computeBlockHash_eq_getBlockId (library : BlockLibrary) {type : BlobType}
    (hshort : type.hasShortBlob) (pool : CryptonotePool) {blob blobConverted : List UInt8}
    (h : (library.nativePool type pool).convertBlob blob = some blobConverted) :
    computeBlockHash (library.nativePool type pool) blobConverted =
      (library.nativePool type pool).getBlockId blob := by
  obtain ⟨block, hblock, hblob⟩ := Option.bind_eq_some_iff.mp h
  obtain ⟨hsizes, htxHashes, huncle, -⟩ := of_parseAndValidateBlockFromBlob hblock
  have hfront := length_hashedHeader_le hshort hsizes
  have hcount := length_writeVarint_le (k := 9)
    (n := hashedCount type block.header.majorVersion block.body.txHashes) (by
      rw [hashedCount]
      split
      all_goals omega)
  have hlt : blobConverted.length < 0x80 := by
    obtain ⟨treeRootHash, -, rfl⟩ := Option.map_eq_some_iff.mp hblob
    simp only [List.length_append, Vector.length_toList, huncle, hsizes.length_nonce8]
    omega
  have hne : type ≠ .forknote2 := by
    rintro rfl
    cases hshort
  have hid : (library.nativePool type pool).getBlockId blob =
      (library.cnFastHash (writeVarint blobConverted.length ++ blobConverted)).toList := by
    change library.getBlockId type blob = _
    rw [BlockLibrary.getBlockId, hblock, Option.bind_some, BlockLibrary.getBlockHash, hblob,
      Option.bind_some, if_neg hne, Option.map_some, List.append_nil, Option.elim_some]
  rw [hid, writeVarint_of_lt hlt]
  rfl

theorem computeBlockHash_eq_getBlockId_oneTransaction :
    computeBlockHash (OneTransaction.library.nativePool .cryptonote OneTransaction.pool)
        OneTransaction.blobConverted =
      (OneTransaction.library.nativePool .cryptonote OneTransaction.pool).getBlockId
        OneTransaction.blob :=
  computeBlockHash_eq_getBlockId OneTransaction.library rfl OneTransaction.pool
    (Option.some_get OneTransaction.isSome_convertBlob).symm

/-! ## What a hashing blob commits to -/

theorem writeVarint_append_inj {a b : ℕ} {rest rest' : List UInt8}
    (h : writeVarint a ++ rest = writeVarint b ++ rest') : a = b ∧ rest = rest' := by
  have ha : a < 2 ^ (a + b) :=
    Nat.lt_two_pow_self.trans_le (Nat.pow_le_pow_right Nat.two_pos (Nat.le_add_right a b))
  have hb : b < 2 ^ (a + b) :=
    Nat.lt_two_pow_self.trans_le (Nat.pow_le_pow_right Nat.two_pos (Nat.le_add_left b a))
  have hload := congrArg (fun bytes => loadVarint (a + b) bytes 0 0) h
  rw [loadVarint_writeVarint ha, loadVarint_writeVarint hb] at hload
  exact Prod.mk.inj hload

/-- The front of a hashing blob tells where it ends. -/
theorem hashedHeader_append_inj {type : BlobType} (hne : type ≠ .salvium)
    {header header' : BlockHeader} (h : HeaderSizes type header) (h' : HeaderSizes type header')
    {rest rest' : List UInt8}
    (heq : hashedHeader type header ++ rest = hashedHeader type header' ++ rest') :
    hashedHeader type header = hashedHeader type header' ∧ rest = rest' := by
  apply List.append_inj heq
  by_cases hown : type.hasOwnFront
  · rw [hashedHeader, hashedHeader, if_pos hown, if_pos hown]
    simp only [List.length_cons, List.length_append, Bitcoin.length_littleEndian, h.length_prevId,
      h'.length_prevId]
  · rw [hashedHeader, hashedHeader, if_neg hown, if_neg hown] at heq ⊢
    simp only [writeHeader, List.append_assoc] at heq
    obtain ⟨hmajor, heq⟩ := writeVarint_append_inj heq
    obtain ⟨hminor, heq⟩ := writeVarint_append_inj heq
    have htimestamp : (if type = .forknote2 then [] else writeVarint header.timestamp) =
        if type = .forknote2 then [] else writeVarint header'.timestamp := by
      split at heq
      · rename_i hfork
        rw [if_pos hfork, if_pos hfork]
      · rw [(writeVarint_append_inj heq).1]
    simp only [writeHeader, List.length_append, hmajor, hminor, htimestamp, h.length_prevId,
      h'.length_prevId, h.length_nonce8, h'.length_nonce8, h.length_nonce, h'.length_nonce,
      h.length_record hne, h'.length_record hne]

/-- Blocks with one hashing blob have one header, as far as it is hashed, and the same transactions,
unless two different pairs of their hashes hash to the same. -/
theorem eq_or_collide_of_convertBlob (library : BlockLibrary) {type : BlobType}
    (hne : type ≠ .salvium) {input input' : List UInt8} {block block' : Block}
    (hblock : library.parseAndValidateBlockFromBlob type input = some block)
    (hblock' : library.parseAndValidateBlockFromBlob type input' = some block')
    (hlt : block.body.txsIds.length < 2 ^ 64)
    (h : library.convertBlob type input = library.convertBlob type input') :
    (hashedHeader type block.header = hashedHeader type block'.header ∧
      block.body.txsIds = block'.body.txsIds ∧ block.body.uncle = block'.body.uncle ∧
        block.header.nonce8 = block'.header.nonce8) ∨
      Collide library.hashPair (hashedPairs library.hashPair block.body.txsIds)
        (hashedPairs library.hashPair block'.body.txsIds) := by
  obtain ⟨hsizes, -, huncle, hprotocolTx⟩ := of_parseAndValidateBlockFromBlob hblock
  obtain ⟨hsizes', -, huncle', hprotocolTx'⟩ := of_parseAndValidateBlockFromBlob hblock'
  have hids : block.body.txsIds ≠ [] := List.cons_ne_nil _ _
  obtain ⟨top, htop, -⟩ := exists_hashTree hids
  have hroot : treeHash library.hashPair block.body.txsIds =
      some (top.root library.hashPair) := by
    rw [treeHash_eq hids hlt, htop, Option.map_some]
  rw [BlockLibrary.convertBlob, BlockLibrary.convertBlob, hblock, hblock', Option.bind_some,
    Option.bind_some, BlockLibrary.getBlockHashingBlob, BlockLibrary.getTxTreeHash, hroot,
    Option.map_some] at h
  obtain ⟨treeRootHash, hroot', hblob⟩ := Option.map_eq_some_iff.mp h.symm
  obtain ⟨hheader, hblob⟩ := hashedHeader_append_inj hne hsizes' hsizes hblob
  obtain ⟨hroots, hblob⟩ := List.append_inj hblob (by simp only [Vector.length_toList])
  obtain ⟨hcount, hblob⟩ := writeVarint_append_inj hblob
  obtain ⟨huncles, hnonce8⟩ := List.append_inj hblob (huncle'.trans huncle.symm)
  have hlength : block.body.txsIds.length = block'.body.txsIds.length := by
    rw [hashedCount, hashedCount, if_neg fun h => hne h.1, if_neg fun h => hne h.1] at hcount
    rw [BlockBody.txsIds, BlockBody.txsIds, hprotocolTx hne, hprotocolTx' hne, List.length_cons,
      List.length_cons, Option.toList_none, List.nil_append, List.nil_append, hcount]
  have hsame : treeHash library.hashPair block.body.txsIds =
      treeHash library.hashPair block'.body.txsIds := by
    rw [hroot, ← Vector.toList_inj.mp hroots]
    exact hroot'.symm
  obtain heq | hcollide := eq_or_collide_of_roots hlength hids hlt hsame
  · exact .inl ⟨hheader.symm, heq, huncles.symm, hnonce8.symm⟩
  · exact .inr hcollide

theorem eq_or_collide_of_convertBlob_oneTransaction :
    (hashedHeader .cryptonote OneTransaction.block.header =
        hashedHeader .cryptonote OneTransaction.block.header ∧
      OneTransaction.block.body.txsIds = OneTransaction.block.body.txsIds ∧
      OneTransaction.block.body.uncle = OneTransaction.block.body.uncle ∧
        OneTransaction.block.header.nonce8 = OneTransaction.block.header.nonce8) ∨
      Collide OneTransaction.library.hashPair
        (hashedPairs OneTransaction.library.hashPair OneTransaction.block.body.txsIds)
        (hashedPairs OneTransaction.library.hashPair OneTransaction.block.body.txsIds) :=
  have hblock : OneTransaction.library.parseAndValidateBlockFromBlob .cryptonote
      OneTransaction.blob = some OneTransaction.block :=
    (Option.some_get OneTransaction.isSome_block).symm
  have hother : OneTransaction.library.parseAndValidateBlockFromBlob .cryptonote
      OneTransaction.otherBlob = some OneTransaction.block := by
    rfl
  eq_or_collide_of_convertBlob OneTransaction.library (by decide) hblock hother (by decide) (by
    rw [BlockLibrary.convertBlob, BlockLibrary.convertBlob, hother, hblock])

end Miningcore.HashingBlob
