import Miningcore.Blockchain.Bitcoin.BitcoinJob
import Miningcore.Blockchain.ExtraNonceProviderBase
import Miningcore.Mining.WorkerContextBase

/-!
# Shares of a Progpow job

The header of a worker depends on its extranonce only. A share brings the hash of
that header, a nonce and the mix hash that the header and the nonce have.

## Implementation notes

The light cache is there; the hashers and what it computes are functions of bytes.
Numbers are read from bytes with the lowest first. The fields of `BlockHeader` stand
in the layout that the NBitcoin library documents, as in `Bitcoin.BitcoinJob`.
-/

namespace Miningcore.Progpow

open Foundation

structure ProgpowWorkerContext extends WorkerDifficulty where
  extraNonce1 : List Char

/-- What a job reads of a template after it was initialised. -/
structure BlockTemplate where
  height : ℕ
  version : UInt32
  curTime : ℕ
  previousBlockhash : Bytes
  bits : Bytes
  transactions : List Bytes
deriving DecidableEq

structure ProgpowJob where
  blockTemplate : BlockTemplate
  coinbaseInitial : Bytes
  coinbaseFinal : Bytes
  merkleSteps : List Bytes
  networkDifficulty : ℚ
  shareMultiplier : ℚ
  blockTargetValue : ℕ
  coinbaseHasher : Bytes → Bytes
  doubleDigest : Bytes → Bytes
  headerHasher : Bytes → Bytes
  blockHasher : Bytes → Bytes
  /-- The mix hash and the result of a header hash and a nonce. -/
  compute : Bytes → ℕ → Option (Bytes × Bytes)
  /-- Whether the share-diff of a result is below 0.99 of a difficulty. -/
  isLow : ℕ → ℚ → Bool
  /-- The text of the share-diff of a result. -/
  shareDiff : ℕ → String

def toBigInteger (bytes : Bytes) : ℕ :=
  bytes.foldr (fun byte value => byte.toNat + 256 * value) 0

theorem toBigInteger_littleEndian {width n : ℕ} (h : n < 256 ^ width) :
    toBigInteger (Bitcoin.littleEndian width n) = n := by
  induction width generalizing n with
  | zero =>
      rw [pow_zero] at h
      rw [Bitcoin.littleEndian, toBigInteger, List.foldr_nil]
      omega
  | succ width ih =>
      rw [pow_succ] at h
      have hquotient := ih (show n / 256 < 256 ^ width by omega)
      rw [toBigInteger] at hquotient
      rw [Bitcoin.littleEndian, toBigInteger, List.foldr_cons, hquotient, Nat.toUInt8_eq,
        UInt8.toNat_ofNat']
      omega

namespace ProgpowJob

variable (job : ProgpowJob)

def serializeCoinbase (extraNonce1 : List Char) : Bytes :=
  job.coinbaseInitial ++ hexToByteArray extraNonce1 ++ job.coinbaseFinal

/-- The height is in the place of the nonce. -/
def serializeHeader (coinbaseHash : Bytes) : Bytes :=
  let merkleRoot := MerkleTree.withFirst job.doubleDigest job.merkleSteps coinbaseHash
  Bitcoin.littleEndian 4 job.blockTemplate.version.toNat ++ job.blockTemplate.previousBlockhash ++
    merkleRoot ++ Bitcoin.littleEndian 4 job.blockTemplate.curTime ++ job.blockTemplate.bits ++
    Bitcoin.littleEndian 4 job.blockTemplate.height

/-- The header of the worker with an extranonce. -/
def headerBytes (extraNonce1 : List Char) : Bytes :=
  job.serializeHeader (job.coinbaseHasher (job.serializeCoinbase extraNonce1))

/-- The hash of the header, in the order of the texts. -/
def headerHash (extraNonce1 : List Char) : Bytes :=
  (job.headerHasher (job.headerBytes extraNonce1)).reverse

/-- The header part of a block. -/
def serializeBlockHeader (header : Bytes) (nonce : ℕ) (mixHash : Bytes) : Bytes :=
  header ++ Bitcoin.littleEndian 8 nonce ++ mixHash

def serializeBlock (header coinbase : Bytes) (nonce : ℕ) (mixHash : Bytes) : Bytes :=
  serializeBlockHeader header nonce mixHash ++
    Bitcoin.BitcoinJob.varInt (job.blockTemplate.transactions.length + 1) ++ coinbase ++
    job.blockTemplate.transactions.flatten

/-- The share of a nonce. The jobs differ in the hash a block is announced under, which they take
from the header, the nonce, the text of the mix hash and the result. -/
def processShareWith (blockHash : Bytes → ℕ → List Char → Bytes → Bytes)
    (context : ProgpowWorkerContext) (nonce : ℕ) (inputHeaderHash mixHash : List Char) :
    Except SubmitException (MinedShare × Option (List Char)) :=
  let coinbase := job.serializeCoinbase context.extraNonce1
  let header := job.headerBytes context.extraNonce1
  let headerHash := job.headerHash context.extraNonce1
  if toHexString headerHash ≠ inputHeaderHash then .error (.stratum .minusOne "bad header-hash")
  else
    match job.compute headerHash nonce with
    | none => .error (.stratum .minusOne "bad hash")
    | some (mixHashOut, result) =>
        if mixHash ≠ toHexString mixHashOut then .error (.stratum .minusOne "bad mix-hash")
        else
          let resultValue := toBigInteger result.reverse
          let isBlockCandidate := decide (resultValue ≤ job.blockTargetValue)
          match stratumDifficulty context.toWorkerDifficulty isBlockCandidate
              (job.isLow resultValue) with
          | none => .error (.stratum .lowDifficultyShare
              s!"low difficulty share ({job.shareDiff resultValue})")
          | some difficulty =>
              let share : MinedShare :=
                { blockHeight := job.blockTemplate.height
                  networkDifficulty := some job.networkDifficulty
                  difficulty := difficulty / job.shareMultiplier
                  isBlockCandidate
                  blockHash := if isBlockCandidate then
                    some (String.ofList (toHexString (blockHash header nonce mixHash result)))
                    else none }
              .ok (share, if isBlockCandidate then
                some (toHexString (job.serializeBlock header coinbase nonce mixHashOut.reverse))
                else none)

/-- A block is announced under its result. -/
def processShareInternal (context : ProgpowWorkerContext) (nonce : ℕ)
    (inputHeaderHash mixHash : List Char) :
    Except SubmitException (MinedShare × Option (List Char)) :=
  job.processShareWith (fun _ _ _ result => result) context nonce inputHeaderHash mixHash

variable {job}

/-- A share has the hash of the worker's header, and the mix hash of its nonce. -/
theorem of_processShareWith {blockHash : Bytes → ℕ → List Char → Bytes → Bytes}
    {context : ProgpowWorkerContext} {nonce : ℕ} {inputHeaderHash mixHash : List Char}
    {result : MinedShare × Option (List Char)}
    (h : job.processShareWith blockHash context nonce inputHeaderHash mixHash = .ok result) :
    toHexString (job.headerHash context.extraNonce1) = inputHeaderHash ∧
      ∃ computed, job.compute (job.headerHash context.extraNonce1) nonce = some computed ∧
        mixHash = toHexString computed.1 := by
  rw [processShareWith] at h
  dsimp only at h
  split at h
  · cases h
  · rename_i hheader
    split at h
    · cases h
    · rename_i mixHashOut resultBytes hcompute
      split at h
      · cases h
      · rename_i hmix
        exact ⟨not_not.mp hheader, _, hcompute, not_not.mp hmix⟩

end ProgpowJob

end Miningcore.Progpow

/-!
## Worker jobs of a Progpow pool

Every connection gets a worker job when it subscribes, when there is a new job and
when its difficulty changes. The worker job keeps the texts that were submitted to
it, and the job it was made of hashes the header of the connection.

## Implementation notes

The registries of all worker jobs are one list of their numbers and texts. Requests
are those of subscribed and authorised workers. A broadcast is a new job and a
worker job for one connection after the other.
-/

namespace Miningcore.Progpow

open Foundation Mining

structure ProgpowWorkerJob where
  /-- Null when no job has arrived yet. -/
  job : Option ProgpowJob
  extraNonce1 : List Char

/-- The texts submitted to the worker jobs. -/
abbrev Registry := List (ℕ × List Char)

def registerSubmit (reference : ℕ) (nonce headerHash mixHash : List Char) (registry : Registry) :
    Option Registry :=
  let key := (reference, ignoringCase (nonce ++ headerHash ++ mixHash))
  if key ∈ registry then none else some (key :: registry)

namespace ProgpowWorkerJob

/-- The nonce and the mix hash of a submission that passes the checks before it is registered. -/
def checkSubmission (context : ProgpowWorkerContext) (nonce mixHash : Option (List Char)) :
    Except SubmitException (List Char × List Char) :=
  let nonce := nonce.getD []
  if nonce = [] then .error .argument
  else
    match mixHash with
    | none => .error .nullReference
    | some mixHash =>
        if mixHash.length ≠ 64 then
          .error (.stratum .other s!"incorrect size of mixHash: {String.ofList mixHash}")
        else if nonce.length ≠ 16 then
          .error (.stratum .other s!"incorrect size of nonce: {String.ofList nonce}")
        else if context.extraNonce1.length < 4 then .error (.parse .argumentOutOfRange)
        else if (ignoringCase (context.extraNonce1.take 4)).isPrefixOf (ignoringCase nonce) then
          .ok (nonce, mixHash)
        else .error (.stratum .other s!"nonce out of range: {String.ofList nonce}")

/-- What a submission that passes the checks looks like. -/
theorem of_checkSubmission {context : ProgpowWorkerContext} {nonce mixHash : Option (List Char)}
    {nonceText mixHashText : List Char}
    (h : checkSubmission context nonce mixHash = .ok (nonceText, mixHashText)) :
    nonceText.length = 16 ∧
      (ignoringCase (context.extraNonce1.take 4)).isPrefixOf (ignoringCase nonceText) := by
  simp only [checkSubmission] at h
  split at h
  · cases h
  · split at h
    · cases h
    · split at h
      · cases h
      · split at h
        · cases h
        · rename_i hlength
          split at h
          · cases h
          · split at h
            · rename_i hprefix
              cases h
              exact ⟨not_not.mp hlength, hprefix⟩
            · cases h

/-- The share of a submission that was registered. -/
def hashShare (workerJob : ProgpowWorkerJob) (context : ProgpowWorkerContext)
    (nonce : List Char) (headerHash : Option (List Char)) (mixHash : List Char) :
    Except SubmitException (MinedShare × Option (List Char)) :=
  match parseHexNumber 64 nonce with
  | .error exception => .error (.parse exception)
  | .ok nonceLong =>
      match workerJob.job, headerHash with
      | none, _ => .error .nullReference
      | some _, none => .error (.stratum .minusOne "bad header-hash")
      | some job, some headerHash => job.processShareInternal context nonceLong headerHash mixHash

def processShare (workerJob : ProgpowWorkerJob) (reference : ℕ) (context : ProgpowWorkerContext)
    (nonce headerHash mixHash : Option (List Char)) (registry : Registry) :
    Registry × Except SubmitException (MinedShare × Option (List Char)) :=
  match checkSubmission context nonce mixHash with
  | .error exception => (registry, .error exception)
  | .ok (nonce, mixHash) =>
      match registerSubmit reference nonce (headerHash.getD []) mixHash registry with
      | none => (registry, .error (.stratum .duplicateShare "duplicate share"))
      | some registry => (registry, workerJob.hashShare context nonce headerHash mixHash)

end ProgpowWorkerJob

/-- What a submission names, without the two characters in front of each hexadecimal text. -/
structure SubmitParams where
  jobId : Option (List Char)
  nonce : Option (List Char)
  headerHash : Option (List Char)
  mixHash : Option (List Char)
deriving DecidableEq

def substring2 : Option (List Char) → Except SubmitException (Option (List Char))
  | none => .ok none
  | some text =>
      if text.length < 2 then .error (.parse .argumentOutOfRange) else .ok (some (text.drop 2))

def param (submitParams : List (Option (List Char))) (i : ℕ) :
    Except SubmitException (Option (List Char)) :=
  match submitParams[i]? with
  | some text => .ok text
  | none => .error .indexOutOfRange

def extractParams (submitParams : List (Option (List Char))) :
    Except SubmitException SubmitParams := do
  let workerValue ← param submitParams 0
  let jobId ← param submitParams 1
  let nonce ← substring2 (← param submitParams 2)
  let headerHash ← substring2 (← param submitParams 3)
  let mixHash ← substring2 (← param submitParams 4)
  if (workerValue.getD []).all isWhiteSpace then
    .error (.stratum .other "missing or invalid workername")
  else .ok { jobId, nonce, headerHash, mixHash }

structure PoolState where
  currentJob : Option ProgpowJob := none
  provider : Blockchain.ExtraNonceProvider 2
  jobs : WorkerJobs ProgpowWorkerJob := {}
  contexts : String → ProgpowWorkerContext

/-- What happens in a pool. -/
inductive Event where
  | updateJob (job : ProgpowJob)
  | subscribe (connectionId : String)
  | createWorkerJob (connectionId : String)
  | setDifficulty (connectionId : String) (difficulty : WorkerDifficulty)
  | submit (connectionId : String) (submitParams : List (Option (List Char)))

namespace PoolState

variable (state : PoolState)

def setContext (connectionId : String) (context : ProgpowWorkerContext) : PoolState :=
  { state with contexts := Function.update state.contexts connectionId context }

/-- `GetSubscriberData`, which assigns the extranonce of a connection. -/
def getSubscriberData (connectionId : String) : PoolState :=
  let (extraNonce1, provider) := state.provider.next
  { state with provider }.setContext connectionId
    { state.contexts connectionId with extraNonce1 }

def createWorkerJob (maxActiveJobs : ℕ) (connectionId : String) : PoolState :=
  { state with
    jobs := state.jobs.addJob maxActiveJobs connectionId
      { job := state.currentJob, extraNonce1 := (state.contexts connectionId).extraNonce1 } }

/-- What an event makes of the pool, the registries aside. -/
def step (maxActiveJobs : ℕ) : Event → PoolState
  | .updateJob job => { state with currentJob := some job }
  | .subscribe connectionId => state.getSubscriberData connectionId
  | .createWorkerJob connectionId => state.createWorkerJob maxActiveJobs connectionId
  | .setDifficulty connectionId difficulty =>
      state.setContext connectionId
        { state.contexts connectionId with toWorkerDifficulty := difficulty }
  | .submit _ _ => state

/-- The ids of the worker jobs are the numbers from 1 on. -/
def hasId (jobId : Option (List Char)) (reference : ℕ) (_ : ProgpowWorkerJob) : Bool :=
  jobId = some (toString (reference + 1)).toList

def submitShare (connectionId : String) (submitParams : List (Option (List Char)))
    (registry : Registry) :
    Registry × Except SubmitException (MinedShare × Option (List Char)) :=
  match extractParams submitParams with
  | .error exception => (registry, .error exception)
  | .ok params =>
      match state.jobs.getJob (hasId params.jobId) connectionId with
      | none => (registry, .error (.stratum .minusOne "invalid jobid"))
      | some (reference, workerJob) =>
          workerJob.processShare reference (state.contexts connectionId) params.nonce
            params.headerHash params.mixHash registry

end PoolState

end Miningcore.Progpow
