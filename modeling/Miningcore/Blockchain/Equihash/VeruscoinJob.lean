import Miningcore.Blockchain.Bitcoin.BitcoinJob
import Miningcore.Blockchain.ExtraNonceProviderBase
import Miningcore.Foundation.Registry

/-!
# Shares of a Veruscoin job

A submission brings the rest of a nonce, a time and a solution. The header and the
solution are hashed together. When PBaaS is active, the nonce in the header is the
daemon's, and the extranonce of the worker has to be found near the end of the
solution.

## Implementation notes

The digests of the hasher are functions of bytes. The registry holds its texts
without their case. Requests are those of subscribed workers, whose extranonces come
from the provider.
-/

namespace Miningcore.Equihash

open Foundation Blockchain

structure EquihashWorkerContext extends WorkerDifficulty where
  extraNonce1 : List Char
  isHexPairs_extraNonce1 : IsHexPairs extraNonce1

/-- `GetSubscriberData`, which assigns the extranonce of a worker. It has a size. -/
def getSubscriberData {extranonceBytes : ℕ} (hbytes : 0 < extranonceBytes)
    (provider : ExtraNonceProvider extranonceBytes) (context : EquihashWorkerContext) :
    EquihashWorkerContext × ExtraNonceProvider extranonceBytes :=
  ({ context with
      extraNonce1 := provider.next.1
      isHexPairs_extraNonce1 := provider.isHexPairs_next hbytes }, provider.next.2)

structure EquihashBlockTemplate where
  height : ℕ
  version : ℕ
  curTime : ℕ
  previousBlockhash : Bytes
  bits : Bytes
  /-- The nonce of the daemon, which may be missing. -/
  nonce : List Char
  solution : List Char
  transactions : List Bytes

structure VeruscoinJob where
  blockTemplate : EquihashBlockTemplate
  difficulty : ℚ
  merkleRoot : Bytes
  hashReserved : Bytes
  coinbaseInitial : Bytes
  blockTargetValue : ℕ
  solutionSize : ℕ
  solutionPreambleSize : ℕ
  /-- The digest of a version of the hasher, whose first one has no name. -/
  verushash : Option String → Bytes → Bytes
  toUInt256 : Bytes → ℕ
  /-- Whether the share-diff of a hash is below 0.99 of a difficulty. -/
  isLow : Bytes → ℚ → Bool
  /-- The text of the share-diff of a hash. -/
  shareDiff : Bytes → String

structure Submission where
  context : EquihashWorkerContext
  extraNonce2 : List Char
  nTime : List Char
  solution : List Char

def Submission.nonce (submission : Submission) : List Char :=
  submission.context.extraNonce1 ++ submission.extraNonce2

def solutionSlice : ℕ := 6

def hashVersion2b2 : String := "2b2"

def hashVersion2b1 : String := "2b1"

def hashVersion2b : String := "2b"

def duplicateShare : SubmitException := .stratum .duplicateShare "duplicate share"

/-- Whether a text occurs in another one. -/
def containsText (text part : List Char) : Bool := text.tails.any part.isPrefixOf

namespace VeruscoinJob

variable (job : VeruscoinJob)

/-- The version of the solution of the template tells whether PBaaS is active. -/
def isPBaaSActive : Bool :=
  6 < hexValue (toHexString (hexToReverseByteArray (job.blockTemplate.solution.take 8)))

def serializeHeader (nTime : ℕ) (nonce : List Char) : Bytes :=
  Bitcoin.littleEndian 4 job.blockTemplate.version ++ job.blockTemplate.previousBlockhash ++
    job.merkleRoot ++ job.hashReserved ++ Bitcoin.littleEndian 4 nTime ++
    job.blockTemplate.bits ++ hexToByteArray nonce

def serializeBlock (header coinbase solution : Bytes) : Bytes :=
  header ++ solution ++ Bitcoin.BitcoinJob.varInt (job.blockTemplate.transactions.length + 1) ++
    coinbase ++ job.blockTemplate.transactions.flatten

/-- The version of the hasher for a solution. -/
def hashVersion (solution : List Char) : Except SubmitException (Option String) :=
  if 4 < job.blockTemplate.version then
    if job.blockTemplate.solution ≠ [] then
      let solutionVersion := (solution.drop solutionSlice).take 2
      if solution.length < solutionSlice + 2 then .error (.parse .argumentOutOfRange)
      else if solutionVersion ≠ job.blockTemplate.solution.take 2 then
        .error (.stratum .other ("invalid solution - expected solution header: " ++
          String.ofList (job.blockTemplate.solution.take 2)))
      else if solutionVersion = ['0', '3'] then .ok (some hashVersion2b1)
      else .ok (some hashVersion2b2)
    else .ok (some hashVersion2b)
  else .ok none

/-- The share of a hash, with the block if it is a candidate. -/
def hashShare (worker : WorkerDifficulty) (headerBytes solutionBytes headerHash : Bytes) :
    Except SubmitException (MinedShare × Option (List Char)) :=
  let isBlockCandidate := decide (job.toUInt256 headerHash ≤ job.blockTargetValue)
  match stratumDifficulty worker isBlockCandidate (job.isLow headerHash) with
  | none => .error (.stratum .lowDifficultyShare
      ("low difficulty share (" ++ job.shareDiff headerHash ++ ")"))
  | some difficulty => .ok
      ({ blockHeight := job.blockTemplate.height
         networkDifficulty := some job.difficulty
         difficulty
         isBlockCandidate
         blockHash := if isBlockCandidate then
           some (String.ofList (toHexString headerHash.reverse)) else none },
        if isBlockCandidate then
          some (toHexString (job.serializeBlock headerBytes job.coinbaseInitial solutionBytes))
        else none)

def processShareInternal (worker : WorkerDifficulty) (nonce : List Char) (nTime : ℕ)
    (solution : List Char) : Except SubmitException (MinedShare × Option (List Char)) :=
  let solutionBytes := hexToByteArray solution
  let headerBytes := job.serializeHeader nTime nonce
  match job.hashVersion solution with
  | .error exception => .error exception
  | .ok version =>
      job.hashShare worker headerBytes solutionBytes
        (job.verushash version (headerBytes ++ solutionBytes))

/-- The time of a submission that passes the checks before it is registered. -/
def checkSubmission (submission : Submission) : Except SubmitException ℕ :=
  if submission.extraNonce2 = [] ∨ submission.nTime = [] ∨ submission.solution = [] then
    .error .argument
  else if submission.nTime.length ≠ 8 then
    .error (.stratum .other "incorrect size of ntime")
  else
    match parseHexNumber 32 (toHexString (hexToReverseByteArray submission.nTime)) with
    | .error exception => .error (.parse exception)
    | .ok nTimeInt =>
        if nTimeInt ≠ job.blockTemplate.curTime then
          .error (.stratum .other "ntime out of range")
        else if submission.nonce.length ≠ 64 then
          .error (.stratum .other "incorrect size of extraNonce2")
        else if submission.solution.length ≠
            (job.solutionSize + job.solutionPreambleSize) * 2 then
          .error (.stratum .other "incorrect size of solution")
        else .ok nTimeInt

def registerVersucoinSubmit (nonce solution : List Char) (submissions : List (List Char)) :
    Option (List (List Char)) :=
  let key := ignoringCase (nonce ++ solution)
  if key ∈ submissions then none else some (key :: submissions)

/-- The nonce of the header. -/
def headerNonce (nonce : List Char) : List Char :=
  if job.isPBaaSActive then toHexString (hexToReverseByteArray job.blockTemplate.nonce) else nonce

/-- The share of a submission that was registered. -/
def processRegistered (submission : Submission) (nTime : ℕ) :
    Except SubmitException (MinedShare × Option (List Char)) :=
  let solutionExtraData := submission.solution.drop (submission.solution.length - 30)
  if job.isPBaaSActive ∧ job.blockTemplate.nonce = [] then
    .error (.stratum .other "block header nonce not provided by daemon")
  else if job.isPBaaSActive ∧ submission.solution.length < 30 then
    .error (.parse .argumentOutOfRange)
  else if job.isPBaaSActive ∧ ¬ containsText solutionExtraData submission.context.extraNonce1 then
    .error (.stratum .other "invalid solution, pool nonce missing")
  else
    job.processShareInternal submission.context.toWorkerDifficulty
      (job.headerNonce submission.nonce) nTime submission.solution

/-- The share of a submission with the texts registered after it. -/
def processShare (submission : Submission) (submissions : List (List Char)) :
    List (List Char) × Except SubmitException (MinedShare × Option (List Char)) :=
  match job.checkSubmission submission with
  | .error exception => (submissions, .error exception)
  | .ok nTime =>
      match registerVersucoinSubmit submission.nonce submission.solution submissions with
      | none => (submissions, .error duplicateShare)
      | some submissions => (submissions, job.processRegistered submission nTime)

variable {job}

/-- What a submission that is registered looks like. -/
theorem of_checkSubmission {submission : Submission} {nTime : ℕ}
    (h : job.checkSubmission submission = .ok nTime) :
    nTime = job.blockTemplate.curTime ∧ submission.nonce.length = 64 ∧
      submission.solution.length = (job.solutionSize + job.solutionPreambleSize) * 2 := by
  rw [checkSubmission] at h
  split at h
  · cases h
  · split at h
    · cases h
    · split at h
      · cases h
      · split at h
        · cases h
        · rename_i htime
          split at h
          · cases h
          · rename_i hnonce
            split at h
            · cases h
            · rename_i hsolution
              cases h
              exact ⟨not_not.mp htime, not_not.mp hnonce, not_not.mp hsolution⟩

end VeruscoinJob

end Miningcore.Equihash
