import Miningcore.Blockchain.ScaledTargets
import Miningcore.Blockchain.Xelis.XelisJob
import Miningcore.Foundation.CompactForm

/-!
# What a Xelis job takes from the daemon

The parts of a block header are found by the counts of its tips and transactions. The
time and the miner's key come from the work that belongs to the header. The target of
the block is computed from its difficulty: the bytes are put at the end of a buffer with
the lowest first, and they are read from it with the highest first.

## Implementation notes

The conversion of numbers to 256 bits is a function of numbers. None is a header or a
difficulty that throws.
-/

namespace Miningcore.Xelis

open Foundation Bitcoin

/-! ## Targets -/

/-- A number from bytes, the highest first. -/
def bigEndianNumber (bytes : List UInt8) : ℕ := Progpow.toBigInteger bytes.reverse

def diff1Target : ℕ := 2 ^ 256 - 1

/-- `DifficultyToTarget`. It divides by a difficulty that comes to zero. -/
def difficultyToTarget (difficulty : ℚ) : Option (List UInt8) :=
  if difficulty = 0 then some (List.replicate 32 0)
  else
    let diff := scaledDifficulty ulongMax difficulty
    if diff = 0 then none
    else some (padTarget (signedBytes (diff1Target / diff * 255)))

/-- `CheckDiff`, which compares the bytes one by one. -/
def checkDiff : List UInt8 → List UInt8 → Bool
  | hashByte :: hashBytes, targetByte :: targetBytes =>
      if hashByte < targetByte then true
      else if targetByte < hashByte then false
      else checkDiff hashBytes targetBytes
  | _, _ => false

/-- `CheckDiff` with the target of a difficulty. -/
def checkDifficulty (hashBytes : List UInt8) (difficulty : ℚ) : Option Bool :=
  (difficultyToTarget difficulty).map (checkDiff hashBytes)

/-- The comparison of a job with a block target. -/
def meetsTarget (toUInt256 : ℕ → ℕ) (blockTargetBytes hashBytes : List UInt8) : Bool :=
  toUInt256 (bigEndianNumber hashBytes) ≤ toUInt256 (bigEndianNumber blockTargetBytes)

/-! ## Templates -/

def hashSize : ℕ := 32

def blockHeaderOffsetVersion : ℕ := 0

def blockHeaderOffsetHeight : ℕ := 1

def blockHeaderOffsetTimestamp : ℕ := 9

def blockHeaderOffsetTipsCount : ℕ := 57

def blockHeaderOffsetTips : ℕ := 58

def blockHeaderSizeTransactionsCount : ℕ := 2

def blockTemplateOffsetTimestamp : ℕ := 32

def blockTemplateOffsetNonce : ℕ := 40

def blockTemplateOffsetMinerPublicKey : ℕ := 80

structure GetBlockHeaderResponse where
  topoHeight : ℕ
  template : List Char

structure GetBlockTemplateResponse where
  difficulty : ℚ
  template : List Char

/-- So many bytes from an offset on. -/
def slice (bytes : List UInt8) (offset size : ℕ) : List UInt8 := (bytes.drop offset).take size

/-- `Init`, which leaves the hashes of a job as they are. -/
def XelisJob.init (job : XelisJob) (toUInt256 : ℕ → ℕ) (blockHeader : GetBlockHeaderResponse)
    (blockTemplate : GetBlockTemplateResponse) (prevHash : List Char) : Option XelisJob := do
  let blockTargetBytes ← difficultyToTarget blockTemplate.difficulty
  let blockHeaderBytes := hexToByteArray blockHeader.template
  let blockTemplateBytes := hexToByteArray blockTemplate.template
  let tipsCountBytes := slice blockHeaderBytes blockHeaderOffsetTipsCount
    (blockHeaderOffsetTips - blockHeaderOffsetTipsCount)
  let tipsCount ← tryParseHexNumber 32 (toHexString tipsCountBytes)
  let offsetTransactionsCount := blockHeaderOffsetTips + hashSize * tipsCount
  let transactionsCountBytes := slice blockHeaderBytes offsetTransactionsCount
    blockHeaderSizeTransactionsCount
  let transactionsCount ← tryParseHexNumber 32 (toHexString transactionsCountBytes)
  return { job with
    topoHeight := blockHeader.topoHeight
    difficulty := blockTemplate.difficulty
    isBlockCandidate := meetsTarget toUInt256 blockTargetBytes
    prevHashBytes := hexToByteArray prevHash
    versionBytes := slice blockHeaderBytes 0 (blockHeaderOffsetHeight - blockHeaderOffsetVersion)
    heightBytes := slice blockHeaderBytes blockHeaderOffsetHeight
      (blockHeaderOffsetTimestamp - blockHeaderOffsetHeight)
    nTimeBytes := slice blockTemplateBytes blockTemplateOffsetTimestamp
      (blockTemplateOffsetNonce - blockTemplateOffsetTimestamp)
    tipsCountBytes
    tipsBytes :=
      if 0 < tipsCount then
        some (slice blockHeaderBytes blockHeaderOffsetTips (hashSize * tipsCount))
      else none
    transactionsCountBytes
    transactionsBytes :=
      if 0 < transactionsCount then
        some (slice blockHeaderBytes (offsetTransactionsCount + blockHeaderSizeTransactionsCount)
          (hashSize * transactionsCount))
      else none
    minerPublicKeyBytes := slice blockTemplateBytes blockTemplateOffsetMinerPublicKey
      (blockTemplateBytes.length - blockTemplateOffsetMinerPublicKey) }

/-! ## Reassembled headers -/

section headers

/-- So many bytes. -/
abbrev ByteString (size : ℕ) := { bytes : List UInt8 // bytes.length = size }

/-- A header as the daemon serializes it. -/
structure BlockHeader where
  version : ByteString 1
  height : ByteString 8
  timestamp : ByteString 8
  nonce : ByteString 8
  extranonce : ByteString 32
  tips : List (ByteString 32)
  transactions : List (ByteString 32)
  minerPublicKey : ByteString 32
  tips_lt : tips.length < 2 ^ 8
  transactions_lt : transactions.length < 2 ^ 16

def BlockHeader.bytes (header : BlockHeader) : List UInt8 :=
  header.version.1 ++ header.height.1 ++ header.timestamp.1 ++ header.nonce.1 ++
    header.extranonce.1 ++ (littleEndian 1 header.tips.length).reverse ++
    header.tips.flatMap Subtype.val ++ (littleEndian 2 header.transactions.length).reverse ++
    header.transactions.flatMap Subtype.val ++ header.minerPublicKey.1

/-- The work of a miner as the daemon serializes it. -/
structure MinerWork where
  headerWork : ByteString 32
  timestamp : ByteString 8
  nonce : ByteString 8
  extranonce : ByteString 32
  minerPublicKey : ByteString 32

def MinerWork.bytes (work : MinerWork) : List UInt8 :=
  work.headerWork.1 ++ work.timestamp.1 ++ work.nonce.1 ++ work.extranonce.1 ++
    work.minerPublicKey.1

theorem slice_append (front : List UInt8) {part rest bytes : List UInt8} {offset size : ℕ}
    (hbytes : bytes = front ++ (part ++ rest)) (hoffset : front.length = offset)
    (hsize : part.length = size) : slice bytes offset size = part := by
  rw [hbytes, slice, List.drop_left' hoffset, List.take_left' hsize]

theorem length_flatMap_val (parts : List (ByteString 32)) :
    (parts.flatMap Subtype.val).length = 32 * parts.length := by
  induction parts with
  | nil => rfl
  | cons part parts ih =>
      rw [List.flatMap_cons, List.length_append, ih, part.2, List.length_cons]
      omega

/-- A count is read from its own digits. -/
theorem tryParseHexNumber_littleEndian {width n : ℕ} (hwidth : 0 < width) (hle : width ≤ 4)
    (hn : n < 256 ^ width) :
    tryParseHexNumber 32 (toHexString (littleEndian width n).reverse) = some n := by
  have hlength : (toHexString (littleEndian width n).reverse).length = 2 * width := by
    rw [toHexString_littleEndian, length_hexText]
  rw [tryParseHexNumber_of_isHexDigit _ (isHexDigit_toHexString _), toHexString_littleEndian,
    hexValue_hexText _ _ (by rwa [pow_mul])]
  · rw [hlength]
    calc 16 ^ (2 * width) ≤ 16 ^ 8 := Nat.pow_le_pow_right (by decide) (by omega)
      _ = 2 ^ 32 := by norm_num
  · rw [← List.length_pos_iff, hlength]
    omega

/-- The work of a miner has the nonces of the header that it belongs to. -/
def MinerWork.Matches (work : MinerWork) (header : BlockHeader) : Prop :=
  work.nonce = header.nonce ∧ work.extranonce = header.extranonce

variable (job : XelisJob) (toUInt256 : ℕ → ℕ) (header : BlockHeader) (work : MinerWork)
  (topoHeight : ℕ) (difficulty : ℚ) (prevHash : List Char)

/-- The daemon's answers. -/
def BlockHeader.response : GetBlockHeaderResponse := ⟨topoHeight, toHexString header.bytes⟩

def MinerWork.response : GetBlockTemplateResponse := ⟨difficulty, toHexString work.bytes⟩

/-- What a job takes from the parts of a header and of the work that belongs to it. -/
def XelisJob.withParts (target : List UInt8) : XelisJob :=
  { job with
    topoHeight
    difficulty
    isBlockCandidate := meetsTarget toUInt256 target
    prevHashBytes := hexToByteArray prevHash
    versionBytes := header.version.1
    heightBytes := header.height.1
    nTimeBytes := work.timestamp.1
    tipsCountBytes := (littleEndian 1 header.tips.length).reverse
    tipsBytes :=
      if 0 < header.tips.length then some (header.tips.flatMap Subtype.val) else none
    transactionsCountBytes := (littleEndian 2 header.transactions.length).reverse
    transactionsBytes :=
      if 0 < header.transactions.length then
        some (header.transactions.flatMap Subtype.val) else none
    minerPublicKeyBytes := work.minerPublicKey.1 }

section parts

variable {header work}

theorem slice_version : slice header.bytes 0 1 = header.version.1 := by
  apply slice_append []
  · simp only [BlockHeader.bytes, List.append_assoc]
    rfl
  · rfl
  · exact header.version.2

theorem slice_height : slice header.bytes 1 8 = header.height.1 := by
  apply slice_append header.version.1
  · simp only [BlockHeader.bytes, List.append_assoc]
    rfl
  · exact header.version.2
  · exact header.height.2

/-- What is in front of the counts. -/
def BlockHeader.front (header : BlockHeader) : List UInt8 :=
  header.version.1 ++ header.height.1 ++ header.timestamp.1 ++ header.nonce.1 ++
    header.extranonce.1

theorem length_front : header.front.length = 57 := by
  simp only [BlockHeader.front, List.length_append, header.version.2, header.height.2,
    header.timestamp.2, header.nonce.2, header.extranonce.2]

theorem slice_tipsCount :
    slice header.bytes 57 1 = (littleEndian 1 header.tips.length).reverse := by
  apply slice_append header.front
  · simp only [BlockHeader.bytes, BlockHeader.front, List.append_assoc]
    rfl
  · exact length_front
  · rw [List.length_reverse, length_littleEndian]

theorem slice_tips :
    slice header.bytes 58 (32 * header.tips.length) = header.tips.flatMap Subtype.val := by
  apply slice_append (header.front ++ (littleEndian 1 header.tips.length).reverse)
  · simp only [BlockHeader.bytes, BlockHeader.front, List.append_assoc]
    rfl
  · rw [List.length_append, length_front, List.length_reverse, length_littleEndian]
  · exact length_flatMap_val header.tips

theorem slice_transactionsCount :
    slice header.bytes (58 + 32 * header.tips.length) 2 =
      (littleEndian 2 header.transactions.length).reverse := by
  apply slice_append (header.front ++ (littleEndian 1 header.tips.length).reverse ++
    header.tips.flatMap Subtype.val)
  · simp only [BlockHeader.bytes, BlockHeader.front, List.append_assoc]
    rfl
  · rw [List.length_append, List.length_append, length_front, List.length_reverse,
      length_littleEndian, length_flatMap_val]
  · rw [List.length_reverse, length_littleEndian]

theorem slice_transactions :
    slice header.bytes (58 + 32 * header.tips.length + 2) (32 * header.transactions.length) =
      header.transactions.flatMap Subtype.val := by
  apply slice_append (header.front ++ (littleEndian 1 header.tips.length).reverse ++
    header.tips.flatMap Subtype.val ++ (littleEndian 2 header.transactions.length).reverse)
  · simp only [BlockHeader.bytes, BlockHeader.front, List.append_assoc]
    rfl
  · simp only [List.length_append, length_front, List.length_reverse, length_littleEndian,
      length_flatMap_val]
  · exact length_flatMap_val header.transactions

theorem slice_timestamp : slice work.bytes 32 8 = work.timestamp.1 := by
  apply slice_append work.headerWork.1
  · simp only [MinerWork.bytes, List.append_assoc]
    rfl
  · exact work.headerWork.2
  · exact work.timestamp.2

theorem slice_minerPublicKey :
    slice work.bytes 80 (work.bytes.length - 80) = work.minerPublicKey.1 := by
  have hlength : (work.headerWork.1 ++ work.timestamp.1 ++ work.nonce.1 ++
      work.extranonce.1).length = 80 := by
    simp only [List.length_append, work.headerWork.2, work.timestamp.2, work.nonce.2,
      work.extranonce.2]
  apply slice_append
  · rw [MinerWork.bytes, List.append_right_inj]
    exact (List.append_nil _).symm
  · exact hlength
  · rw [MinerWork.bytes, List.length_append, hlength, Nat.add_sub_cancel_left]

end parts

/-- The parts are where the counts of the header say. -/
theorem init_eq :
    job.init toUInt256 (header.response topoHeight) (work.response difficulty) prevHash =
      (difficultyToTarget difficulty).map
        (job.withParts toUInt256 header work topoHeight difficulty prevHash) := by
  have htips : tryParseHexNumber 32 (toHexString (littleEndian 1 header.tips.length).reverse) =
      some header.tips.length :=
    tryParseHexNumber_littleEndian (by decide) (by decide) header.tips_lt
  have htransactions : tryParseHexNumber 32
      (toHexString (littleEndian 2 header.transactions.length).reverse) =
      some header.transactions.length :=
    tryParseHexNumber_littleEndian (by decide) (by decide) header.transactions_lt
  dsimp only [XelisJob.init, BlockHeader.response, MinerWork.response]
  rw [hexToByteArray_toHexString, hexToByteArray_toHexString]
  dsimp only [blockHeaderOffsetTipsCount, blockHeaderOffsetTips, blockHeaderOffsetHeight,
    blockHeaderOffsetVersion, blockHeaderOffsetTimestamp, blockHeaderSizeTransactionsCount,
    blockTemplateOffsetTimestamp, blockTemplateOffsetNonce, blockTemplateOffsetMinerPublicKey,
    hashSize]
  cases difficultyToTarget difficulty with
  | none => rfl
  | some target =>
      simp only [Option.bind_eq_bind, Option.bind_some, Nat.reduceSub, slice_tipsCount, htips,
        slice_transactionsCount, htransactions, slice_version, slice_height, slice_timestamp,
        slice_tips, slice_transactions, slice_minerPublicKey]
      rfl

/-- The header of a job is the daemon's with the replaced parts. -/
theorem serializeHeader_withParts (target : List UInt8) (extranonce : ByteString 32)
    (nonce : ByteString 8) :
    (job.withParts toUInt256 header work topoHeight difficulty prevHash target).serializeHeader
        extranonce.1 nonce.1 =
      BlockHeader.bytes
        { header with
          timestamp := work.timestamp, nonce, extranonce
          minerPublicKey := work.minerPublicKey } := by
  have hnone (parts : List (ByteString 32)) :
      (if 0 < parts.length then some (parts.flatMap Subtype.val) else none).getD [] =
        parts.flatMap Subtype.val := by
    cases parts with
    | nil => rfl
    | cons part parts => rfl
  rw [XelisJob.serializeHeader, XelisJob.withParts, BlockHeader.bytes]
  dsimp only
  rw [hnone, hnone]

theorem length_bytes :
    header.bytes.length = 92 + 32 * header.tips.length + 32 * header.transactions.length := by
  simp only [BlockHeader.bytes, List.length_append, header.version.2, header.height.2,
    header.timestamp.2, header.nonce.2, header.extranonce.2, header.minerPublicKey.2,
    List.length_reverse, length_littleEndian, length_flatMap_val]
  omega

/-- A job whose block target exists has the daemon's header in parts: it is put together with the
worker's nonces and the work's time and key, and with the work's own nonces it is the same. -/
theorem serializeHeader_init :
    ((job.init toUInt256 (header.response topoHeight) (work.response difficulty) prevHash).isSome =
      (difficultyToTarget difficulty).isSome) ∧
    ∀ started ∈
        job.init toUInt256 (header.response topoHeight) (work.response difficulty) prevHash,
      (∀ (extranonce : ByteString 32) (nonce : ByteString 8),
        started.serializeHeader extranonce.1 nonce.1 = BlockHeader.bytes { header with
          timestamp := work.timestamp, nonce, extranonce,
          minerPublicKey := work.minerPublicKey } ∧
        (started.serializeHeader extranonce.1 nonce.1).length = header.bytes.length) ∧
      (work.Matches header → work.timestamp = header.timestamp →
        work.minerPublicKey = header.minerPublicKey →
        started.serializeHeader work.extranonce.1 work.nonce.1 = header.bytes) := by
  rw [init_eq]
  refine ⟨Option.isSome_map, fun started hstarted => ?_⟩
  obtain ⟨target, -, rfl⟩ := Option.map_eq_some_iff.mp hstarted
  constructor
  · intro extranonce nonce
    rw [serializeHeader_withParts]
    exact ⟨rfl, by rw [length_bytes, length_bytes]⟩
  · rintro ⟨hnonce, hextranonce⟩ htimestamp hkey
    rw [serializeHeader_withParts, htimestamp, hkey, hnonce, hextranonce]

end headers

/-! ## The number of a target -/

section targets

theorem bigEndianNumber_cons (byte : UInt8) (bytes : List UInt8) :
    bigEndianNumber (byte :: bytes) = byte.toNat * 256 ^ bytes.length + bigEndianNumber bytes := by
  rw [bigEndianNumber, List.reverse_cons, toBigInteger_append, List.length_reverse,
    bigEndianNumber, toBigInteger_cons]
  simp only [Progpow.toBigInteger, List.foldr_nil]
  ring

theorem bigEndianNumber_lt (bytes : List UInt8) : bigEndianNumber bytes < 256 ^ bytes.length := by
  rw [bigEndianNumber, ← List.length_reverse]
  exact toBigInteger_lt bytes.reverse

/-- The first bytes that differ decide as the numbers do. -/
theorem checkDiff_eq {hashBytes targetBytes : List UInt8}
    (hlength : hashBytes.length = targetBytes.length) :
    checkDiff hashBytes targetBytes =
      decide (bigEndianNumber hashBytes < bigEndianNumber targetBytes) := by
  induction hashBytes generalizing targetBytes with
  | nil =>
      rw [List.length_nil, eq_comm, List.length_eq_zero_iff] at hlength
      rw [hlength]
      rfl
  | cons hashByte hashBytes ih =>
      cases targetBytes with
      | nil => cases hlength
      | cons targetByte targetBytes =>
          rw [List.length_cons, List.length_cons, Nat.add_right_cancel_iff] at hlength
          have hhash := bigEndianNumber_lt hashBytes
          have htarget := bigEndianNumber_lt targetBytes
          rw [bigEndianNumber_cons, bigEndianNumber_cons, checkDiff, ih hlength]
          rw [hlength] at hhash ⊢
          obtain hlt | heq | hgt := lt_trichotomy hashByte.toNat targetByte.toNat
          · have hle : (hashByte.toNat + 1) * 256 ^ targetBytes.length ≤
                targetByte.toNat * 256 ^ targetBytes.length := Nat.mul_le_mul_right _ hlt
            rw [if_pos (UInt8.lt_iff_toNat_lt.mpr hlt), eq_comm, decide_eq_true_iff]
            linarith
          · rw [UInt8.toNat_inj.mp heq, if_neg (UInt8.lt_irrefl _), if_neg (UInt8.lt_irrefl _),
              decide_eq_decide]
            exact (Nat.add_lt_add_iff_left).symm
          · have hle : (targetByte.toNat + 1) * 256 ^ targetBytes.length ≤
                hashByte.toNat * 256 ^ targetBytes.length := Nat.mul_le_mul_right _ hgt
            rw [if_neg (UInt8.not_lt.mpr (UInt8.le_of_lt (UInt8.lt_iff_toNat_lt.mpr hgt))),
              if_pos (UInt8.lt_iff_toNat_lt.mpr hgt), eq_comm, decide_eq_false_iff_not]
            linarith

theorem bigEndianNumber_padTarget {bytes : List UInt8} (hlength : bytes.length < 32) :
    bigEndianNumber (padTarget bytes) = bigEndianNumber bytes := by
  have hzero (count : ℕ) : Progpow.toBigInteger (List.replicate count 0) = 0 := by
    induction count with
    | zero => rfl
    | succ count ih =>
        rw [List.replicate_succ, toBigInteger_cons, ih]
        rfl
  rw [padTarget, if_pos hlength, bigEndianNumber, List.reverse_append, List.reverse_replicate,
    toBigInteger_append, hzero, Nat.mul_zero, Nat.add_zero, bigEndianNumber]

/-- The target of a difficulty in the network, by its whole 255ths. -/
def networkTarget (difficulty : ℚ) : ℕ := scaledQuotient (wholeScaled difficulty)

/-- The bytes of a difficulty are its target for both comparisons. -/
structure HoldsTarget (toUInt256 : ℕ → ℕ) (difficulty : ℚ) : Prop where
  number : (difficultyToTarget difficulty).map bigEndianNumber = some (networkTarget difficulty)
  checkDiff : ∀ hashBytes, hashBytes.length = 32 → checkDifficulty hashBytes difficulty =
    some (decide (bigEndianNumber hashBytes < networkTarget difficulty))
  candidate : ∀ hashBytes, hashBytes.length = 32 →
    (difficultyToTarget difficulty).map (fun target => meetsTarget toUInt256 target hashBytes) =
      some (decide (bigEndianNumber hashBytes ≤ networkTarget difficulty))

/-- Higher difficulties have lower targets, besides. -/
structure HoldTargets (toUInt256 : ℕ → ℕ) (difficulties : Set ℚ) : Prop where
  holds : ∀ difficulty ∈ difficulties, HoldsTarget toUInt256 difficulty
  antitone : ∀ difficulty ∈ difficulties, ∀ higher ∈ difficulties, difficulty ≤ higher →
    ∀ target ∈ difficultyToTarget difficulty, ∀ target' ∈ difficultyToTarget higher,
      bigEndianNumber target' ≤ bigEndianNumber target

/-- The bytes of the quotient are fewer than 32 and the target from the other end, and the
conversion to 256 bits keeps the target apart from the numbers above it. -/
structure KeepsTarget (toUInt256 : ℕ → ℕ) (difficulty : ℚ) : Prop where
  large : 512 ≤ difficulty
  mirrored : bigEndianNumber
      (signedBytes (scaledQuotient (scaledDifficulty ulongMax difficulty))) =
    networkTarget difficulty
  apart : ∀ n, networkTarget difficulty < n → n < 2 ^ 256 →
    toUInt256 (networkTarget difficulty) < toUInt256 n

variable {toUInt256 : ℕ → ℕ} {difficulty : ℚ}

theorem scaledDifficulty_pos (hdiff : 0 < wholeScaled difficulty) :
    0 < scaledDifficulty ulongMax difficulty :=
  le_scaledDifficulty_of_le Nat.one_pos (by norm_num) (by decide) hdiff

theorem difficultyToTarget_eq (hdiff : 0 < wholeScaled difficulty) :
    difficultyToTarget difficulty =
      some (padTarget (signedBytes (scaledQuotient (scaledDifficulty ulongMax difficulty)))) := by
  have hne : difficulty ≠ 0 := by
    rintro rfl
    exact absurd hdiff (by decide +kernel)
  rw [difficultyToTarget, if_neg hne]
  exact if_neg (scaledDifficulty_pos hdiff).ne'

/-- The number of a target, which has to be copied. -/
theorem number_eq_iff (hdouble : IsDouble difficulty) (hdiff : 0 < wholeScaled difficulty) :
    bigEndianNumber
          (padTarget (signedBytes (scaledQuotient (scaledDifficulty ulongMax difficulty)))) =
        networkTarget difficulty ↔
      512 ≤ difficulty ∧ bigEndianNumber
          (signedBytes (scaledQuotient (scaledDifficulty ulongMax difficulty))) =
        networkTarget difficulty := by
  have hlarge : (signedBytes (scaledQuotient (scaledDifficulty ulongMax difficulty))).length < 32 ↔
      512 ≤ difficulty := by
    rw [length_signedBytes_lt_iff, scaledQuotient_lt_iff (scaledDifficulty_pos hdiff),
      le_scaledDifficulty_large_iff (by decide) hdouble]
  by_cases hlength :
      (signedBytes (scaledQuotient (scaledDifficulty ulongMax difficulty))).length < 32
  · rw [bigEndianNumber_padTarget hlength]
    exact (and_iff_right (hlarge.mp hlength)).symm
  · refine iff_of_false ?_ fun h => hlength (hlarge.mpr h.1)
    rw [padTarget, if_neg hlength]
    have hsmall : wholeScaled difficulty < 130560 :=
      not_le.mp fun hle => hlength (hlarge.mpr (le_wholeScaled_large_iff.mp hle))
    exact fun hzero => scaledQuotient_ne_zero hdiff (hsmall.le.trans (by decide)) hzero.symm

theorem holdsTarget_iff (hmono : Monotone toUInt256) (hdouble : IsDouble difficulty)
    (hdiff : 0 < wholeScaled difficulty) :
    HoldsTarget toUInt256 difficulty ↔ KeepsTarget toUInt256 difficulty := by
  have htarget := difficultyToTarget_eq hdiff
  constructor
  · intro h
    have hnumber := h.number
    rw [htarget, Option.map_some, Option.some.injEq] at hnumber
    obtain ⟨hlarge, hmirrored⟩ := (number_eq_iff hdouble hdiff).mp hnumber
    refine ⟨hlarge, hmirrored, fun n hgreater hn => ?_⟩
    have hvalue : bigEndianNumber (littleEndian 32 n).reverse = n := by
      rw [bigEndianNumber, List.reverse_reverse]
      exact Progpow.toBigInteger_littleEndian (hn.trans_eq (by norm_num))
    have hcandidate := h.candidate (littleEndian 32 n).reverse
      (by rw [List.length_reverse, length_littleEndian])
    rw [htarget, Option.map_some, Option.some.injEq, meetsTarget, hnumber, hvalue,
      decide_eq_decide] at hcandidate
    exact not_le.mp fun hle => absurd (hcandidate.mp hle) (not_le.mpr hgreater)
  · rintro ⟨hlarge, hmirrored, hapart⟩
    have hnumber := (number_eq_iff hdouble hdiff).mpr ⟨hlarge, hmirrored⟩
    refine ⟨?_, fun hashBytes hlength => ?_, fun hashBytes hlength => ?_⟩
    · rw [htarget, Option.map_some, hnumber]
    · rw [checkDifficulty, htarget, Option.map_some,
        checkDiff_eq (by rw [hlength, length_padTarget]), hnumber]
    · rw [htarget, Option.map_some, meetsTarget, hnumber]
      congr 1
      rw [decide_eq_decide]
      refine ⟨fun hle => ?_, fun hle => hmono hle⟩
      by_contra hgreater
      have hhash : bigEndianNumber hashBytes < 2 ^ 256 := by
        have hbound := bigEndianNumber_lt hashBytes
        rw [hlength] at hbound
        exact hbound.trans_eq (by norm_num)
      exact absurd hle (not_le.mpr (hapart _ (not_le.mp hgreater) hhash))

/-- Numbers with the three highest of their bytes. -/
def compactTarget (n : ℕ) : ℕ := cutOff 256 (Nat.size n / 8 - 2) n

theorem compactTarget_mono : Monotone compactTarget := fun n n' hle =>
  (isScale_size n).cutOff_le_cutOff (isScale_size n') (by decide) (by decide) hle

end targets

end Miningcore.Xelis
