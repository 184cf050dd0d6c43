import Miningcore.Blockchain.Bitcoin.BitcoinJob
import Miningcore.Foundation.OverwritingLoop

/-!
# Shares of a Handshake job

The extranonces of a submission are copied to a buffer of the job that is zero at
first. The header takes the whole buffer.

## Implementation notes

The hashers are functions of bytes, and so is the target that a hash is rounded to.
The roots are those of the job. The registry holds its keys without their case.
-/

namespace Miningcore.Handshake

open Foundation Bitcoin

structure HandshakeWorkerContext extends WorkerDifficulty where
  extraNonce1 : List Char

structure HandshakeJob where
  height : ℕ
  version : UInt32
  curTime : ℕ
  bits : UInt32
  previousBlockhash : Bytes
  length_previousBlockhash : previousBlockhash.length = 32
  treeRoot : Bytes
  length_treeRoot : treeRoot.length = 32
  reservedRoot : Bytes
  witnessRoot : Bytes
  merkleRoot : Bytes
  coinbaseInitial : Bytes
  coinbaseFinal : Bytes
  transactions : List Bytes
  networkDifficulty : ℚ
  shareMultiplier : ℚ
  blockTargetValue : ℕ
  headerHasher : Bytes → Bytes
  shareHasher : Bytes → Bytes
  /-- A hash of so many bytes. -/
  blockHasher : ℕ → Bytes → Bytes
  /-- The target that a hash is rounded to. -/
  compactTarget : Bytes → ℕ
  /-- Whether the share-diff of a target is below 0.99 of a difficulty. -/
  isLow : ℕ → ℚ → Bool
  /-- The text of the share-diff of a target. -/
  shareDiff : ℕ → String

def maskBytes : Bytes := List.replicate 32 0

def nonceSize : ℕ := 24

structure JobState where
  submissions : List (List Char) := []
  zeroNonce : Bytes := List.replicate nonceSize 0
deriving DecidableEq

/-- The texts of a submission and the time of the clock. -/
structure Submission where
  context : HandshakeWorkerContext
  extraNonce2 : List Char
  nTime : List Char
  nonce : List Char
  now : ℕ

/-- What is registered. -/
def Submission.key (submission : Submission) : List Char :=
  ignoringCase (submission.context.extraNonce1 ++ submission.extraNonce2 ++ submission.nTime ++
    submission.nonce)

/-- The bytes of both extranonces. -/
def Submission.extraNonceBytes (submission : Submission) : Bytes :=
  hexToByteArray submission.context.extraNonce1 ++ hexToByteArray submission.extraNonce2

def registerSubmit (submission : Submission) (state : JobState) : Option JobState :=
  if submission.key ∈ state.submissions then none
  else some { state with submissions := submission.key :: state.submissions }

/-- The buffer with the extranonces, and whether there was room for them. -/
def serializeExtranonce (submission : Submission) (zeroNonce : Bytes) : Bytes × Bool :=
  copyFrom 0 zeroNonce submission.extraNonceBytes

structure Numbers where
  nTime : ℕ
  nonce : ℕ
deriving DecidableEq

namespace HandshakeJob

variable (job : HandshakeJob)

def paddingPreviousBlockWithTreeRoot (size : ℕ) : Bytes :=
  (List.range size).map fun i =>
    job.previousBlockhash.getD (i % 32) 0 ^^^ job.treeRoot.getD (i % 32) 0

def serializeHeader (numbers : Numbers) (extraNonce : Bytes) : Bytes :=
  littleEndian 4 numbers.nonce ++ littleEndian 8 numbers.nTime ++ job.previousBlockhash ++
    job.treeRoot ++ extraNonce ++ job.reservedRoot ++ job.witnessRoot ++ job.merkleRoot ++
    littleEndian 4 job.version.toNat ++ littleEndian 4 job.bits.toNat ++ maskBytes

def serializeSubHeader (extraNonce : Bytes) : Bytes :=
  extraNonce ++ job.reservedRoot ++ job.witnessRoot ++ job.merkleRoot ++
    littleEndian 4 job.version.toNat ++ littleEndian 4 job.bits.toNat

def serializeCommitHash (subHeader : Bytes) : Bytes :=
  job.headerHasher (job.headerHasher subHeader ++
    job.headerHasher (job.previousBlockhash ++ maskBytes))

def serializeShare (numbers : Numbers) (commitHash : Bytes) : Bytes :=
  littleEndian 4 numbers.nonce ++ littleEndian 8 numbers.nTime ++
    job.paddingPreviousBlockWithTreeRoot 20 ++ job.previousBlockhash ++ job.treeRoot ++ commitHash

/-- The hash of a share under the mask. -/
def shareHash (share : Bytes) : Bytes :=
  let left := job.blockHasher 64 share
  let right := job.shareHasher (share ++ job.paddingPreviousBlockWithTreeRoot 8)
  let hash := job.blockHasher 32 (left ++ job.paddingPreviousBlockWithTreeRoot 32 ++ right)
  List.zipWith (· ^^^ ·) hash maskBytes

def serializeBlock (header : Bytes) : Bytes :=
  header ++ BitcoinJob.varInt (job.transactions.length + 1) ++
    (job.coinbaseInitial ++ job.coinbaseFinal) ++ job.transactions.flatten

/-- The share of a header with the extranonces, and the block of a candidate. -/
def shareOf (context : HandshakeWorkerContext) (numbers : Numbers) (extraNonce : Bytes) :
    Except SubmitException (MinedShare × Option (List Char)) :=
  let commitHash := job.serializeCommitHash (job.serializeSubHeader extraNonce)
  let hash := job.shareHash (job.serializeShare numbers commitHash)
  let shareHashValue := job.compactTarget hash
  if shareHashValue = 0 then .error .divideByZero
  else
    let isBlockCandidate := decide (shareHashValue ≤ job.blockTargetValue)
    match stratumDifficulty context.toWorkerDifficulty isBlockCandidate
        (job.isLow shareHashValue) with
    | none => .error (.stratum .lowDifficultyShare
        s!"low difficulty share ({job.shareDiff shareHashValue})")
    | some difficulty =>
        .ok
          ({ blockHeight := job.height
             networkDifficulty := some job.networkDifficulty
             difficulty := difficulty / job.shareMultiplier
             isBlockCandidate
             blockHash :=
               if isBlockCandidate then some (String.ofList (toHexString hash)) else none },
            if isBlockCandidate then
              some (toHexString (job.serializeBlock (job.serializeHeader numbers extraNonce)))
            else none)

/-- The share of a submission, which leaves its extranonces in the buffer. -/
def processShareInternal (submission : Submission) (numbers : Numbers) (state : JobState) :
    JobState × Except SubmitException (MinedShare × Option (List Char)) :=
  let (zeroNonce, fits) := serializeExtranonce submission state.zeroNonce
  ({ state with zeroNonce },
    if fits then job.shareOf submission.context numbers zeroNonce else .error .indexOutOfRange)

def checkSubmission (submission : Submission) : Except SubmitException Numbers :=
  if submission.extraNonce2 = [] ∨ submission.nTime = [] ∨ submission.nonce = [] then
    .error .argument
  else if submission.nTime.length ≠ 8 then
    .error (.stratum .other "incorrect size of ntime")
  else
    match parseHexNumber 32 submission.nTime with
    | .error exception => .error (.parse exception)
    | .ok nTime =>
        if nTime < job.curTime ∨ submission.now + 7200 < nTime then
          .error (.stratum .other "ntime out of range")
        else if submission.nonce.length ≠ 8 then
          .error (.stratum .other "incorrect size of nonce")
        else
          match parseHexNumber 32 submission.nonce with
          | .error exception => .error (.parse exception)
          | .ok nonce => .ok ⟨nTime, nonce⟩

def processShare (submission : Submission) (state : JobState) :
    JobState × Except SubmitException (MinedShare × Option (List Char)) :=
  match job.checkSubmission submission with
  | .error exception => (state, .error exception)
  | .ok numbers =>
      match registerSubmit submission state with
      | none => (state, .error (.stratum .duplicateShare "duplicate"))
      | some state => job.processShareInternal submission numbers state

end HandshakeJob

end Miningcore.Handshake
