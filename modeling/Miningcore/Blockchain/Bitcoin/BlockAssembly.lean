import Miningcore.Blockchain.Bitcoin.AssembledCoinbases
import Miningcore.Blockchain.Bitcoin.DuplicateWork
import Miningcore.Foundation.Blocks

/-!
# Assembly of blocks

A job is made of a block template. What is announced of it lets a miner put the header
together by itself, and the pool checks the same header. The block that is submitted is
read back as the template's transactions behind the coinbase, with a header for them.

## Implementation notes

The hash functions are parameters, as is what a node reads a transaction as. The
difficulty bits of a template are in normal form.

## Main results

* `processShare_submission`
* `read_submittedBlock`
-/

namespace Miningcore.Bitcoin

open Foundation Blockchain ByteFormat

/-- A text of so many digits. -/
structure HexDigits (count : ℕ) where
  digits : List Char
  length_eq : digits.length = count
  isHex : ∀ c ∈ digits, isHexDigit c

structure BitcoinBlockTransaction where
  data : List Char
  txId : Option (List Char) := none
  hash : List Char

/-- The leaf of a transaction in the Merkle tree. -/
def BitcoinBlockTransaction.leaf (tx : BitcoinBlockTransaction) : Bytes :=
  (hexToByteArray (tx.txId.getD tx.hash)).reverse

/-- What a job is initialized with, besides what the coinbase is built of. -/
structure JobSetup extends CoinbaseBuilder where
  version : UInt32
  previousBlockhash : HexDigits 64
  bits : HexDigits 8
  blockTransactions : List BitcoinBlockTransaction
  transactions_eq : transactions = blockTransactions.map BitcoinBlockTransaction.data
  transactions_lt : blockTransactions.length < 2 ^ 31
  /-- The data of the extension block, if the coin has it. -/
  mweb : Option (List Char) := none
  networkDifficulty : ℚ
  shareMultiplier : ℚ
  blockTargetValue : ℕ
  coinbaseHasher : Bytes → Vector UInt8 32
  sha256D : Bytes → Vector UInt8 32
  headerHasher : Bytes → ℕ → ℕ
  blockHasher : Bytes → ℕ → String
  isLow : ℕ → ℚ → Bool
  shareDiff : ℕ → String

/-- The bytes of each word of a hash in the opposite order. -/
def swapWords (bytes : Bytes) : Bytes :=
  (List.range 8).flatMap fun i => ((bytes.drop (i * 4)).take 4).reverse

def reverseByteOrder (bytes : Bytes) : Bytes := (swapWords bytes).reverse

/-- What is announced of a job, besides its name. -/
structure JobParams where
  previousBlockHashReversedHex : List Char
  coinbaseInitialHex : List Char
  coinbaseFinalHex : List Char
  merkleBranchesHex : List (List Char)
  version : List Char
  bits : List Char
  curTime : List Char

namespace JobSetup

variable {Money : Type} (money : MoneyLibrary Money) (library : ScriptLibrary) (setup : JobSetup)

def digest (bytes : Bytes) : Bytes := (setup.sha256D bytes).toList

/-- A job but for its coinbase. -/
def baseJob (merkleSteps : List Bytes) : BitcoinJob where
  height := setup.blockTemplate.height
  version := setup.version
  curTime := setup.curTime.toNat
  previousBlockhash := (hexToByteArray setup.previousBlockhash.digits).reverse
  bits := (hexToByteArray setup.bits.digits).reverse
  coinbaseInitial := []
  coinbaseFinal := []
  merkleSteps
  transactions := setup.transactions.map hexToByteArray
  isPoS := setup.isPoS
  mweb := setup.mweb.map hexToByteArray
  networkDifficulty := setup.networkDifficulty
  shareMultiplier := setup.shareMultiplier
  blockTargetValue := setup.blockTargetValue
  coinbaseHasher bytes := (setup.coinbaseHasher bytes).toList
  doubleDigest := setup.digest
  headerHasher := setup.headerHasher
  blockHasher := setup.blockHasher
  isLow := setup.isLow
  shareDiff := setup.shareDiff

/-- The Merkle branches are built first, then the coinbase. -/
def init : Option BitcoinJob :=
  match MerkleTree.calculateSteps setup.digest
      (setup.blockTransactions.map BitcoinBlockTransaction.leaf) with
  | .error _ => none
  | .ok merkleSteps => setup.buildCoinbase money library (setup.baseJob merkleSteps)

def jobParams (job : BitcoinJob) : JobParams where
  previousBlockHashReversedHex :=
    toHexString (reverseByteOrder (hexToByteArray setup.previousBlockhash.digits))
  coinbaseInitialHex := toHexString job.coinbaseInitial
  coinbaseFinalHex := toHexString job.coinbaseFinal
  merkleBranchesHex := job.merkleSteps.map toHexString
  version := hexText 8 setup.version.toNat
  bits := setup.bits.digits
  curTime := hexText 8 setup.curTime.toNat

end JobSetup

namespace BitcoinJob

variable (job : BitcoinJob)

/-- What becomes of a header and its coinbase. -/
def checkHeader (context : BitcoinWorkerContext) (nTime : ℕ) (coinbase header : Bytes) :
    Except SubmitException (MinedShare × Option (List Char)) :=
  let headerValue := job.headerHasher header nTime
  if headerValue = 0 then .error .divideByZero
  else
    let isBlockCandidate := decide (headerValue ≤ job.blockTargetValue)
    match stratumDifficulty context.toWorkerDifficulty isBlockCandidate (job.isLow headerValue) with
    | none =>
        .error (.stratum .lowDifficultyShare s!"low difficulty share ({job.shareDiff headerValue})")
    | some difficulty =>
        let share : MinedShare :=
          { blockHeight := job.height
            networkDifficulty := some job.networkDifficulty
            difficulty := difficulty / job.shareMultiplier
            isBlockCandidate
            blockHash := if isBlockCandidate then some (job.blockHasher header nTime) else none }
        .ok (share, if isBlockCandidate then
          some (toHexString (job.serializeBlock header coinbase)) else none)

theorem processShareInternal_eq (context : BitcoinWorkerContext) (extraNonce2 : List Char)
    (nTime nonce : ℕ) (versionBits : Option UInt32) :
    job.processShareInternal context extraNonce2 nTime nonce versionBits =
      job.checkHeader context nTime (job.serializeCoinbase context.extraNonce1 extraNonce2)
        (job.serializeHeader
          (job.coinbaseHasher (job.serializeCoinbase context.extraNonce1 extraNonce2)) nTime nonce
          context.versionRollingMask versionBits) := rfl

/-- A block that is submitted meets the target. -/
theorem of_checkHeader {context : BitcoinWorkerContext} {nTime : ℕ} {coinbase header : Bytes}
    {share : MinedShare} {block : List Char}
    (h : job.checkHeader context nTime coinbase header = .ok (share, some block)) :
    job.headerHasher header nTime ≤ job.blockTargetValue ∧
      block = toHexString (job.serializeBlock header coinbase) := by
  rw [checkHeader] at h
  split at h
  · cases h
  · dsimp only at h
    split at h
    · cases h
    · simp only [Except.ok.injEq, Prod.mk.injEq, Option.ite_none_right_eq_some,
        Option.some.injEq, decide_eq_true_eq] at h
      exact ⟨h.2.1, h.2.2.symm⟩

end BitcoinJob

/-! ## The miner's side -/

/-- What a miner tries. -/
structure Work where
  extraNonce2 : Bytes
  nTime : UInt32
  nonce : UInt32
  versionBits : UInt32 := 0

/-- What the miner sends. It tells the bits of the version if a mask was agreed on. -/
def Work.submission (work : Work) (context : BitcoinWorkerContext) (now : ℕ) : Submission where
  context
  extraNonce2 := toHexString work.extraNonce2
  nTime := hexText 8 work.nTime.toNat
  nonce := hexText 8 work.nonce.toNat
  versionBits := context.versionRollingMask.map fun mask =>
    hexText 8 (work.versionBits &&& mask).toNat
  now

namespace JobParams

variable (params : JobParams)

/-- The coinbase that a miner puts together. -/
def coinbase (extraNonce1 : List Char) (work : Work) : Bytes :=
  hexToByteArray params.coinbaseInitialHex ++ hexToByteArray extraNonce1 ++ work.extraNonce2 ++
    hexToByteArray params.coinbaseFinalHex

/-- The header that a miner puts together. -/
def header (coinbaseHasher sha256D : Bytes → Bytes) (context : BitcoinWorkerContext)
    (work : Work) : Bytes :=
  let version := UInt32.ofNat (hexValue params.version)
  let rolled := context.versionRollingMask.elim version fun mask =>
    (version &&& ~~~mask) ||| (work.versionBits &&& mask)
  let merkleRoot := (params.merkleBranchesHex.map hexToByteArray).foldl
    (fun hash branch => sha256D (hash ++ branch))
    (coinbaseHasher (params.coinbase context.extraNonce1 work))
  littleEndian 4 rolled.toNat ++ swapWords (hexToByteArray params.previousBlockHashReversedHex) ++
    merkleRoot ++ littleEndian 4 work.nTime.toNat ++ (hexToByteArray params.bits).reverse ++
    littleEndian 4 work.nonce.toNat

end JobParams

theorem swapWords_eq {bytes : Bytes} (h : bytes.length = 32) :
    swapWords bytes = (fullBlocks 4 bytes).flatMap List.reverse := by
  rw [swapWords, fullBlocks, h, List.flatMap_map]

/-- The miner gets the bytes of the hash in the order of the header. -/
theorem swapWords_reverseByteOrder {bytes : Bytes} (h : bytes.length = 32) :
    swapWords (reverseByteOrder bytes) = bytes.reverse := by
  have hblocks : (fullBlocks 4 bytes).flatten = bytes := by
    have hlast : lastBlock 4 bytes = [] := by
      rw [← List.length_eq_zero_iff, length_lastBlock, h]
    have hflatten := flatten_fullBlocks (show 0 < 4 by decide) bytes
    rwa [hlast, List.append_nil] at hflatten
  have hreversed : reverseByteOrder bytes = (fullBlocks 4 bytes).reverse.flatten := by
    rw [reverseByteOrder, swapWords_eq h, List.flatMap_def, List.reverse_flatten, List.map_map]
    simp
  have hcut : fullBlocks 4 (fullBlocks 4 bytes).reverse.flatten = (fullBlocks 4 bytes).reverse := by
    have hsize : ∀ block ∈ (fullBlocks 4 bytes).reverse, block.length = 4 := fun block hblock =>
      length_of_mem_fullBlocks (List.mem_reverse.mp hblock)
    have hlast : ([] : Bytes).length < 4 := by decide
    have hboth := blocks_flatten hsize hlast
    rw [List.append_nil] at hboth
    exact hboth.1
  have hlength : (reverseByteOrder bytes).length = 32 := by
    rw [reverseByteOrder, List.length_reverse, swapWords_eq h, List.length_flatMap]
    simp only [List.length_reverse]
    rw [← List.length_flatten, hblocks, h]
  rw [swapWords_eq hlength, hreversed, hcut, List.flatMap_def, List.map_reverse,
    ← List.reverse_flatten, hblocks]

namespace JobSetup

variable {Money : Type} {money : MoneyLibrary Money} {library : ScriptLibrary} {setup : JobSetup}
  {job : BitcoinJob}

/-- What a job is initialized to. -/
theorem exists_of_init (h : setup.init money library = some job) :
    ∃ merkleSteps coinbaseInitial coinbaseFinal,
      MerkleTree.calculateSteps setup.digest
        (setup.blockTransactions.map BitcoinBlockTransaction.leaf) = .ok merkleSteps ∧
      setup.buildCoinbase money library (setup.baseJob merkleSteps) = some job ∧
      job = { setup.baseJob merkleSteps with coinbaseInitial, coinbaseFinal } := by
  rw [init] at h
  split at h
  · cases h
  · rename_i merkleSteps hsteps
    refine ⟨merkleSteps, job.coinbaseInitial, job.coinbaseFinal, hsteps, h, ?_⟩
    rw [CoinbaseBuilder.buildCoinbase] at h
    obtain ⟨txOut, -, h⟩ := Option.bind_eq_some_iff.mp h
    obtain ⟨coinbaseInitial, -, h⟩ := Option.bind_eq_some_iff.mp h
    obtain ⟨txOutBytes, -, h⟩ := Option.bind_eq_some_iff.mp h
    obtain ⟨coinbaseFinal, -, h⟩ := Option.bind_eq_some_iff.mp h
    cases h
    rfl

theorem length_previousBlockhash (setup : JobSetup) :
    (hexToByteArray setup.previousBlockhash.digits).length = 32 := by
  rw [hexToByteArray_of_isHexDigit setup.previousBlockhash.isHex, length_pairBytes,
    setup.previousBlockhash.length_eq]

theorem length_bits (setup : JobSetup) : (hexToByteArray setup.bits.digits).length = 4 := by
  rw [hexToByteArray_of_isHexDigit setup.bits.isHex, length_pairBytes, setup.bits.length_eq]

/-! ### Headers -/

variable {context : BitcoinWorkerContext} {work : Work} {now : ℕ}

theorem coinbase_jobParams (extraNonce1 : List Char) :
    (setup.jobParams job).coinbase extraNonce1 work =
      job.serializeCoinbase extraNonce1 (toHexString work.extraNonce2) := by
  rw [JobParams.coinbase, jobParams, BitcoinJob.serializeCoinbase, hexToByteArray_toHexString,
    hexToByteArray_toHexString, hexToByteArray_toHexString]

/-- The bits that the miner tells. -/
def toldBits (context : BitcoinWorkerContext) (work : Work) : UInt32 :=
  context.versionRollingMask.elim 0 fun mask => work.versionBits &&& mask

theorem header_jobParams (h : setup.init money library = some job) :
    (setup.jobParams job).header job.coinbaseHasher setup.digest context work =
      job.serializeHeader
        (job.coinbaseHasher
          (job.serializeCoinbase context.extraNonce1 (toHexString work.extraNonce2)))
        work.nTime.toNat work.nonce.toNat context.versionRollingMask
        (some (toldBits context work)) := by
  obtain ⟨merkleSteps, coinbaseInitial, coinbaseFinal, -, -, hjob⟩ := exists_of_init h
  have hversion : UInt32.ofNat (hexValue (setup.jobParams job).version) = setup.version := by
    have hlt : setup.version.toNat < 16 ^ 8 := UInt32.toNat_lt _
    rw [jobParams, hexValue_hexText 8 _ hlt, UInt32.ofNat_toNat]
  have hprevious : swapWords (hexToByteArray
      (setup.jobParams job).previousBlockHashReversedHex) =
        (hexToByteArray setup.previousBlockhash.digits).reverse := by
    rw [jobParams, hexToByteArray_toHexString,
      swapWords_reverseByteOrder (length_previousBlockhash setup)]
  have hbranches : (setup.jobParams job).merkleBranchesHex.map hexToByteArray =
      job.merkleSteps := by
    rw [jobParams, List.map_map]
    apply (List.map_congr_left fun step _ => hexToByteArray_toHexString step).trans
    exact List.map_id _
  have hrolled : context.versionRollingMask.elim setup.version (fun mask =>
      (setup.version &&& ~~~mask) ||| (work.versionBits &&& mask)) =
        job.rolledVersion context.versionRollingMask (some (toldBits context work)) := by
    rw [hjob, toldBits]
    cases context.versionRollingMask with
    | none => rfl
    | some mask =>
        simp only [BitcoinJob.rolledVersion, Option.elim_some, UInt32.and_assoc, UInt32.and_self]
        rfl
  rw [JobParams.header, hversion, hprevious, hbranches, hrolled, coinbase_jobParams,
    BitcoinJob.serializeHeader, MerkleTree.withFirst]
  rw [hjob]
  rfl

theorem checkSubmission_submission (h : setup.init money library = some job)
    (hextra : work.extraNonce2 ≠ []) (htime : setup.curTime ≤ work.nTime)
    (hnow : work.nTime.toNat ≤ now + 7200) :
    job.checkSubmission (work.submission context now) =
      .ok ⟨work.nTime.toNat, work.nonce.toNat, toldBits context work⟩ := by
  have hcurTime : job.curTime = setup.curTime.toNat := by
    obtain ⟨merkleSteps, coinbaseInitial, coinbaseFinal, -, -, rfl⟩ := exists_of_init h
    rfl
  have hempty : ¬ ((work.submission context now).extraNonce2 = [] ∨
      (work.submission context now).nTime = [] ∨ (work.submission context now).nonce = []) := by
    have hpos := List.length_pos_iff.mpr hextra
    rw [Work.submission, ← List.length_eq_zero_iff, length_toHexString, not_or, not_or]
    exact ⟨by omega, BitcoinJob.hexText_ne_nil _, BitcoinJob.hexText_ne_nil _⟩
  have hrange : ¬ (work.nTime.toNat < job.curTime ∨ now + 7200 < work.nTime.toNat) := by
    rw [hcurTime]
    exact not_or.mpr ⟨not_lt.mpr htime, not_lt.mpr hnow⟩
  have hbits : BitcoinJob.parseVersionBits context.versionRollingMask
      (context.versionRollingMask.map fun mask => hexText 8 (work.versionBits &&& mask).toNat) =
        .ok (toldBits context work) := by
    rw [toldBits]
    cases context.versionRollingMask with
    | none => rfl
    | some mask =>
        have hmask : work.versionBits &&& mask &&& ~~~mask = 0 := by
          rw [UInt32.and_assoc, UInt32.and_not_self, UInt32.and_zero]
        rw [Option.map_some, Option.elim_some, BitcoinJob.parseVersionBits,
          BitcoinJob.parseHexNumber_hexText (UInt32.toNat_lt _)]
        dsimp only
        rw [UInt32.ofNat_toNat, hmask, if_neg (not_not.mpr rfl)]
  rw [BitcoinJob.checkSubmission, if_neg hempty, Work.submission,
    if_neg (not_not.mpr (length_hexText 8 _)),
    BitcoinJob.parseHexNumber_hexText (UInt32.toNat_lt _)]
  dsimp only
  rw [if_neg hrange, if_neg (not_not.mpr (length_hexText 8 _)),
    BitcoinJob.parseHexNumber_hexText (UInt32.toNat_lt _), hbits]

/-- Pool and miner agree: what a miner puts together from what is announced of a job is what
the pool checks when it submits it. -/
theorem processShare_submission (h : setup.init money library = some job)
    (context : BitcoinWorkerContext) (work : Work) (hextra : work.extraNonce2 ≠ []) (now : ℕ)
    (htime : setup.curTime ≤ work.nTime) (hnow : work.nTime.toNat ≤ now + 7200)
    (state : JobState) :
    let submission := work.submission context now
    let params := setup.jobParams job
    job.processShare submission state =
      match registerSubmit context.extraNonce1 submission.extraNonce2 submission.nTime
          submission.nonce state with
      | none => (state, .error (.stratum .duplicateShare "duplicate share"))
      | some state =>
          (state, job.checkHeader context work.nTime.toNat
            (params.coinbase context.extraNonce1 work)
            (params.header job.coinbaseHasher setup.digest context work)) := by
  dsimp only
  rw [BitcoinJob.processShare, checkSubmission_submission h hextra htime hnow]
  simp only [BitcoinJob.processShareInternal_eq, coinbase_jobParams, header_jobParams h]
  rfl

end JobSetup

/-! ## Blocks -/

structure BlockHeader where
  version : ℕ
  prevHash : Bytes
  merkleRoot : Bytes
  time : ℕ
  bits : Bytes
  nonce : ℕ
deriving DecidableEq

structure Block (Tx : Type) where
  header : BlockHeader
  coinbase : Transaction
  transactions : List Tx
  signature : Option Bytes

def headerFormat : ByteFormat BlockHeader :=
  ((number 4).pair ((fixed 32).pair ((fixed 32).pair ((number 4).pair ((fixed 4).pair
    (number 4)))))).map
    (fun value => ⟨value.1, value.2.1, value.2.2.1, value.2.2.2.1, value.2.2.2.2.1,
      value.2.2.2.2.2⟩)
    (fun header => (header.version, header.prevHash, header.merkleRoot, header.time, header.bits,
      header.nonce)) fun _ => rfl

/-- What a node reads as a block, in front of an extension block. -/
def blockFormat {Tx : Type} (kind : TransactionKind) (isPoS : Bool) (format : ByteFormat Tx) :
    ByteFormat (Block Tx) :=
  (headerFormat.pair ((format.countedFrom (transactionFormat kind)).pair
    (optional isPoS sized))).map
    (fun value => ⟨value.1, value.2.1.1, value.2.1.2, value.2.2⟩)
    (fun block => (block.header, (block.coinbase, block.transactions), block.signature))
    fun _ => rfl

namespace JobSetup

variable {Money : Type} {money : MoneyLibrary Money} {library : ScriptLibrary} {setup : JobSetup}
  {job : BitcoinJob}

/-- The coinbase is written as a transaction when the extranonces fill the placeholder. -/
theorem exists_transaction {builder : CoinbaseBuilder} {base : BitcoinJob}
    (h : builder.buildCoinbase money library base = some job) {extraNonce1 extraNonce2 : List Char}
    (hfilled : (hexToByteArray extraNonce1).length + (hexToByteArray extraNonce2).length = 8) :
    ∃ written, (transactionFormat builder.kind).Fits (builder.transaction
        (builder.scriptSig library extraNonce1 extraNonce2) written) ∧
      (transactionFormat builder.kind).write (builder.transaction
        (builder.scriptSig library extraNonce1 extraNonce2) written) =
          job.serializeCoinbase extraNonce1 extraNonce2 := by
  obtain ⟨written, hvalues, hinitialBytes, hinitial, hfinalBytes, hfinal⟩ :=
    CoinbaseBuilder.exists_of_buildCoinbase h
  have hprefix := CoinbaseBuilder.sigScriptLength_eq hinitial hfinal
  have hprefixLt : builder.sigScriptLength library < 2 ^ 32 := Nat.mod_lt _ (by decide)
  have hscript : builder.scriptSig library extraNonce1 extraNonce2 =
      builder.generateScriptSigInitial library ++ (hexToByteArray extraNonce1 ++
        hexToByteArray extraNonce2) ++ builder.scriptSigFinal library := by
    simp only [CoinbaseBuilder.scriptSig, List.append_assoc]
  have hlength : builder.sigScriptLength library = (builder.generateScriptSigInitial library ++
      (hexToByteArray extraNonce1 ++ hexToByteArray extraNonce2) ++
        builder.scriptSigFinal library).length := by
    simp only [List.length_append]
    omega
  refine ⟨written, CoinbaseBuilder.fits_transaction hvalues ?_ hfinal, ?_⟩
  · rw [hscript, ← hlength]
    exact hprefixLt.trans (by decide)
  · rw [hscript, CoinbaseBuilder.write_transaction hlength, BitcoinJob.serializeCoinbase,
      hinitialBytes, hfinalBytes]
    simp only [List.append_assoc]

variable {Tx : Type} {format : ByteFormat Tx} {txid : Tx → Bytes}

/-- An entry of the template is the transaction that a node reads. -/
def IsEntry (format : ByteFormat Tx) (txid : Tx → Bytes) (tx : Tx)
    (entry : BitcoinBlockTransaction) : Prop :=
  format.Fits tx ∧ hexToByteArray entry.data = format.write tx ∧ entry.leaf = txid tx

/-- What stands behind a block. -/
def extension (setup : JobSetup) : Bytes :=
  (setup.mweb.map fun mweb => 1 :: hexToByteArray mweb).getD []

/-- A block of the template: it has its transactions behind the coinbase, its header commits to all
of them, and its signature is left empty. -/
structure IsBlock (library : ScriptLibrary) (setup : JobSetup) (txid : Tx → Bytes)
    (extraNonce1 extraNonce2 : List Char) (txs : List Tx) (block : Block Tx) : Prop where
  transactions_eq : block.transactions = txs
  scriptSigs : block.coinbase.inputs.map TransactionInput.scriptSig =
    [setup.scriptSig library extraNonce1 extraNonce2]
  prevHash_eq : block.header.prevHash = (hexToByteArray setup.previousBlockhash.digits).reverse
  merkleRoot_eq : merkleRoot (MerkleTree.merkleJoin setup.digest)
    ((setup.coinbaseHasher ((transactionFormat setup.kind).write block.coinbase)).toList ::
      block.transactions.map txid) = some block.header.merkleRoot
  meetsTarget : setup.headerHasher (headerFormat.write block.header) block.header.time ≤
    setup.blockTargetValue
  signature_eq : block.signature = if setup.isPoS then some [] else none

theorem length_withFirst (setup : JobSetup) (steps : List Bytes) {first : Bytes}
    (h : first.length = 32) : (MerkleTree.withFirst setup.digest steps first).length = 32 := by
  rw [MerkleTree.withFirst]
  induction steps generalizing first with
  | nil => exact h
  | cons step steps ih =>
      apply ih
      exact Vector.length_toList

theorem data_of_isEntry {txs : List Tx} {entries : List BitcoinBlockTransaction}
    (h : List.Forall₂ (IsEntry format txid) txs entries) :
    entries.map (fun entry => hexToByteArray entry.data) = txs.map format.write ∧
      entries.map BitcoinBlockTransaction.leaf = txs.map txid ∧ ∀ tx ∈ txs, format.Fits tx := by
  induction h with
  | nil => exact ⟨rfl, rfl, by simp⟩
  | cons hentry _ ih =>
      obtain ⟨hfits, hdata, hleaf⟩ := hentry
      refine ⟨?_, ?_, List.forall_mem_cons.mpr ⟨hfits, ih.2.2⟩⟩
      · rw [List.map_cons, List.map_cons, hdata, ih.1]
      · rw [List.map_cons, List.map_cons, hleaf, ih.2.1]

/-- A submission that brings a block brings the block of its header. -/
theorem of_processShare {submission : Submission} {state : JobState} {share : MinedShare}
    {text : List Char} (h : (job.processShare submission state).2 = .ok (share, some text)) :
    ∃ numbers, job.checkSubmission submission = .ok numbers ∧
      let coinbase := job.serializeCoinbase submission.context.extraNonce1 submission.extraNonce2
      let header := job.serializeHeader (job.coinbaseHasher coinbase) numbers.nTime numbers.nonce
        submission.context.versionRollingMask (some numbers.versionBits)
      job.headerHasher header numbers.nTime ≤ job.blockTargetValue ∧
        text = toHexString (job.serializeBlock header coinbase) := by
  rw [BitcoinJob.processShare] at h
  split at h
  · cases h
  · rename_i numbers hnumbers
    refine ⟨numbers, hnumbers, ?_⟩
    split at h
    · cases h
    · rw [BitcoinJob.processShareInternal_eq] at h
      exact job.of_checkHeader h

/-- The header that is serialized. -/
def headerOf (job : BitcoinJob) (coinbaseHash : Bytes) (nTime nonce : ℕ)
    (versionMask versionBits : Option UInt32) : BlockHeader where
  version := (job.rolledVersion versionMask versionBits).toNat
  prevHash := job.previousBlockhash
  merkleRoot := MerkleTree.withFirst job.doubleDigest job.merkleSteps coinbaseHash
  time := nTime
  bits := job.bits
  nonce := nonce

theorem write_headerOf (coinbaseHash : Bytes) (nTime nonce : ℕ)
    (versionMask versionBits : Option UInt32) :
    headerFormat.write (headerOf job coinbaseHash nTime nonce versionMask versionBits) =
      job.serializeHeader coinbaseHash nTime nonce versionMask versionBits := by
  rw [BitcoinJob.serializeHeader, littleEndian_eq_bytesOf, littleEndian_eq_bytesOf,
    littleEndian_eq_bytesOf]
  simp only [List.append_assoc]
  rfl

theorem serializeBlock_eq (job : BitcoinJob) (header coinbase : Bytes) :
    job.serializeBlock header coinbase =
      header ++ BitcoinJob.varInt (job.transactions.length + 1) ++ coinbase ++
        job.transactions.flatten ++ (if job.isPoS then [0] else []) ++
        (job.mweb.map fun mweb => 1 :: mweb).getD [] := by
  rw [BitcoinJob.serializeBlock]
  cases job.mweb with
  | none => rfl
  | some mweb => rfl

/-- What is serialized is read as a block, with an empty signature for the node to replace. -/
theorem read_serializeBlock {kind : TransactionKind} {header : BlockHeader}
    {coinbase : Transaction} {txs : List Tx} (hheader : headerFormat.Fits header)
    (hcoinbase : (transactionFormat kind).Fits coinbase) (htxs : ∀ tx ∈ txs, format.Fits tx)
    (hcount : txs.length + 1 < 2 ^ 64) (htransactions : job.transactions = txs.map format.write) :
    (blockFormat kind job.isPoS format).read
        (job.serializeBlock (headerFormat.write header) ((transactionFormat kind).write coinbase)) =
      some (⟨header, coinbase, txs, if job.isPoS then some [] else none⟩,
        (job.mweb.map fun mweb => 1 :: mweb).getD []) := by
  have hsignature : (optional job.isPoS sized).Fits (if job.isPoS then some [] else none) := by
    cases job.isPoS with
    | true => exact ⟨rfl, by simp [sized]⟩
    | false => exact ⟨rfl, by simp⟩
  have hfits : (blockFormat kind job.isPoS format).Fits
      ⟨header, coinbase, txs, if job.isPoS then some [] else none⟩ :=
    ⟨hheader, ⟨hcount, hcoinbase, htxs⟩, hsignature⟩
  have hempty : (optional job.isPoS sized).write (if job.isPoS then some [] else none) =
      if job.isPoS then [0] else [] := by
    cases job.isPoS with
    | true => rfl
    | false => rfl
  have hread := (blockFormat kind job.isPoS format).read_write _
    ((job.mweb.map fun mweb => 1 :: mweb).getD []) hfits
  rw [← hread, serializeBlock_eq, ← hempty, varInt_eq_writeCompactSize, htransactions,
    List.length_map]
  simp only [blockFormat, map, pair, countedFrom, compactSize, List.append_assoc]

/-- Every block that the pool submits is read back as a block of the template. -/
theorem read_submittedBlock (hinit : setup.init money library = some job) (txs : List Tx)
    (hentries : List.Forall₂ (IsEntry format txid) txs setup.blockTransactions)
    (submission : Submission)
    (hfilled : (hexToByteArray submission.context.extraNonce1).length +
      (hexToByteArray submission.extraNonce2).length = 8)
    (state : JobState) (share : MinedShare) (text : List Char)
    (h : (job.processShare submission state).2 = .ok (share, some text)) :
    ∃ block, (blockFormat setup.kind setup.isPoS format).read (hexToByteArray text) =
        some (block, setup.extension) ∧
      IsBlock library setup txid submission.context.extraNonce1 submission.extraNonce2 txs
        block := by
  obtain ⟨merkleSteps, coinbaseInitial, coinbaseFinal, hsteps, hbuild, hjob⟩ :=
    exists_of_init hinit
  obtain ⟨written, hcoinbaseFits, hcoinbase⟩ := exists_transaction hbuild hfilled
  obtain ⟨numbers, hnumbers, htarget, rfl⟩ := of_processShare h
  obtain ⟨-, -, htime, hnonce⟩ := BitcoinJob.of_checkSubmission hnumbers
  obtain ⟨hdata, hleaves, htxs⟩ := data_of_isEntry hentries
  have htransactions : job.transactions = txs.map format.write := by
    rw [hjob, ← hdata]
    change setup.transactions.map hexToByteArray = _
    rw [setup.transactions_eq, List.map_map]
    rfl
  have hcount : txs.length + 1 < 2 ^ 64 := by
    have hlt := setup.transactions_lt
    rw [← hentries.length_eq] at hlt
    omega
  rw [hexToByteArray_toHexString]
  rw [← hcoinbase, ← write_headerOf] at htarget ⊢
  have hheader : headerFormat.Fits (headerOf job (job.coinbaseHasher
      ((transactionFormat setup.kind).write (setup.transaction (setup.scriptSig library
        submission.context.extraNonce1 submission.extraNonce2) written))) numbers.nTime
        numbers.nonce submission.context.versionRollingMask (some numbers.versionBits)) := by
    refine ⟨UInt32.toNat_lt _, ?_, ?_, parseHexNumber_lt htime, ?_, parseHexNumber_lt hnonce⟩
    · rw [hjob]
      exact List.length_reverse.trans (length_previousBlockhash setup)
    · rw [hjob]
      exact length_withFirst setup _ Vector.length_toList
    · rw [hjob]
      exact List.length_reverse.trans (length_bits setup)
  have hread := read_serializeBlock hheader hcoinbaseFits htxs hcount htransactions
  have hPoS : job.isPoS = setup.isPoS := by rw [hjob]; rfl
  have hextension : (job.mweb.map fun mweb => 1 :: mweb).getD [] = setup.extension := by
    rw [hjob, extension]
    exact congrArg (Option.getD · []) (Option.map_map _ _ _)
  rw [hPoS, hextension] at hread
  refine ⟨_, hread, rfl, rfl, ?_, ?_, ?_, rfl⟩
  · rw [hjob]
    rfl
  · obtain ⟨steps, hcalculated, hroot⟩ := MerkleTree.withFirst_calculateSteps setup.digest
      (setup.blockTransactions.map BitcoinBlockTransaction.leaf)
      (job.coinbaseHasher ((transactionFormat setup.kind).write (setup.transaction
        (setup.scriptSig library submission.context.extraNonce1 submission.extraNonce2) written)))
    rw [hsteps] at hcalculated
    cases hcalculated
    rw [hleaves] at hroot
    rw [hjob] at hroot ⊢
    exact hroot
  · rw [hjob] at htarget ⊢
    exact htarget

end JobSetup

namespace Announced

open Assembled

def setup : JobSetup where
  toCoinbaseBuilder := { builder with transactions := ["0a0b".toList] }
  version := 0x20000000
  previousBlockhash := ⟨List.replicate 64 'a', by decide, by simp; decide⟩
  bits := ⟨"1d00ffff".toList, by decide, List.all_eq_true.mp (by decide)⟩
  blockTransactions := [{ data := "0a0b".toList, hash := List.replicate 64 '1' }]
  transactions_eq := rfl
  transactions_lt := by decide
  networkDifficulty := 1
  shareMultiplier := 1
  blockTargetValue := 1
  coinbaseHasher _ := Vector.replicate 32 7
  sha256D bytes := Vector.replicate 32 (bytes.foldl (· + ·) 0)
  headerHasher _ _ := 1
  blockHasher _ _ := ""
  isLow _ _ := false
  shareDiff _ := ""

theorem isSome_init : (setup.init checkedMoney library).isSome := by
  decide +kernel

def job : BitcoinJob := (setup.init checkedMoney library).get isSome_init

theorem init_eq : setup.init checkedMoney library = some job := (Option.some_get isSome_init).symm

def context : BitcoinWorkerContext where
  difficulty := 1
  extraNonce1 := provider.next.1
  versionRollingMask := some 0x1fffe000

def work : Work where
  extraNonce2 := [1, 2, 3, 4]
  nTime := 1700000060
  nonce := 42
  versionBits := 0x4000

end Announced

namespace JobSetup

open Announced

theorem processShare_submission_fourBytes :
    (job.processShare (work.submission context 1700000000) {}).2 =
      job.checkHeader context 1700000060 ((setup.jobParams job).coinbase context.extraNonce1 work)
        ((setup.jobParams job).header job.coinbaseHasher setup.digest context work) :=
  congrArg Prod.snd (processShare_submission init_eq context work (by decide) 1700000000
    (by decide) (by decide) {})

/-- The block of the submission. -/
def blockText : List Char :=
  match (job.processShare (work.submission context 1700000000) {}).2 with
  | .ok (_, some text) => text
  | _ => []

theorem read_submittedBlock_fourBytes :
    ∃ block, (blockFormat setup.kind false (fixed 2)).read (hexToByteArray blockText) =
        some (block, []) ∧
      IsBlock Assembled.library setup (fun _ => List.replicate 32 0x11) context.extraNonce1
        (toHexString work.extraNonce2) [[10, 11]] block := by
  have hentry : IsEntry (fixed 2) (fun _ => List.replicate 32 0x11) [10, 11]
      { data := "0a0b".toList, hash := List.replicate 64 '1' } :=
    ⟨rfl, by decide, by decide⟩
  have hblock : ∃ share, (job.processShare (work.submission context 1700000000) {}).2 =
      .ok (share, some blockText) := by
    have hsome : ((job.processShare (work.submission context 1700000000) {}).2.toOption.bind
        Prod.snd).isSome := by
      decide +kernel
    rw [blockText]
    generalize (job.processShare (work.submission context 1700000000) {}).2 = result at hsome ⊢
    match result with
    | .ok (share, some _) => exact ⟨share, rfl⟩
    | .ok (_, none) => cases hsome
    | .error _ => cases hsome
  obtain ⟨share, h⟩ := hblock
  exact read_submittedBlock init_eq [[10, 11]] (.cons hentry .nil)
    (work.submission context 1700000000) (by decide +kernel) {} share blockText h

end JobSetup

end Miningcore.Bitcoin
