import Mathlib.Algebra.Order.Floor.Ring
import Mathlib.Data.List.DropRight
import Mathlib.Data.Rat.Floor
import Miningcore.Stratum.Submission
import Mathlib.Tactic.NormNum
import Miningcore.Foundation.Registry

/-!
# The bridge to the Pearl packages

The bridge keeps the block template of every job. It takes a proof as base64 or as
hexadecimal digits, verifies it at the share target of the worker and again at the
target of the header, and makes the block of a proof that meets both.

## Implementation notes

Imported packages are functions. The certificates and the texts of Python
exceptions are theirs. A request the bridge raises an exception for has no result.
-/

namespace Miningcore.Pearl

open Foundation

structure PearlBlockTemplate where
  height : ℕ
  previousBlockHash : List Char
  /-- The difficulty of the target, or of the bits when there is no target. -/
  networkDifficulty : ℚ

/-- The template of the gateway, with its header before the proof commitment. -/
structure GatewayTemplate where
  incompleteHeader : List UInt8
  requiredCertVersion : ℤ
  target : ℕ

structure PearlBlock where
  serialize : List UInt8
  headerHash : List UInt8

/-- The packages, for proofs of a type. -/
structure PearlPackages (π : Type*) where
  fromGetBlockTemplate : PearlBlockTemplate → Except String GatewayTemplate
  fromBase64 : List Char → Except String π
  /-- Whether a proof meets compact bits, which are those of the header if there are no others. -/
  verifyPlainProof : ℤ → List UInt8 → π → Option ℕ → Bool × String
  generateBlock : π → GatewayTemplate → Except String PearlBlock

structure PearlProofResult where
  valid : Bool
  meetsNetworkTarget : Bool
  shareDifficulty : ℚ := 0
  networkDifficulty : ℚ := 0
  blockHex : Option (List Char) := none
  blockHash : Option (List Char) := none
  error : Option String := none

def diff1Target : ℕ := 0xFFFF * 2 ^ 208

def difficultyFromTarget (target : ℕ) : ℚ :=
  if target = 0 then 0 else diff1Target / target

/-- `str.isspace` of a character -/
def isSpace (c : Char) : Bool := isWhiteSpace c || (0x1c ≤ c.toNat && c.toNat ≤ 0x1f)

def strip (payload : List Char) : List Char := (payload.dropWhile isSpace).rdropWhile isSpace

def base64Char (n : ℕ) : Char :=
  "ABCDEFGHIJKLMNOPQRSTUVWXYZabcdefghijklmnopqrstuvwxyz0123456789+/".toList.getD n '='

def b64encode : List UInt8 → List Char
  | [] => []
  | [a] => [base64Char (a.toNat / 4), base64Char (a.toNat % 4 * 16), '=', '=']
  | [a, b] =>
      [base64Char (a.toNat / 4), base64Char (a.toNat % 4 * 16 + b.toNat / 16),
        base64Char (b.toNat % 16 * 4), '=']
  | a :: b :: c :: rest =>
      [base64Char (a.toNat / 4), base64Char (a.toNat % 4 * 16 + b.toNat / 16),
        base64Char (b.toNat % 16 * 4 + c.toNat / 64), base64Char (c.toNat % 64)] ++ b64encode rest

def isHex (payload : List Char) : Bool :=
  2 ≤ payload.length && payload.length % 2 = 0 && payload.all isHexDigit

/-- `_deserialize_plain_proof` -/
def deserializePlainProof {π : Type*} (packages : PearlPackages π) (payload : List Char) :
    Except String π :=
  let payload := strip payload
  packages.fromBase64 (if isHex payload then b64encode (pairBytes payload) else payload)

def bitLength (n : ℕ) : ℕ := if n = 0 then 0 else Nat.log2 n + 1

def targetToBits (target : ℕ) : ℕ :=
  if target = 0 then 0
  else
    let size := (bitLength target + 7) / 8
    let compact :=
      if size ≤ 3 then target <<< (8 * (3 - size)) else target >>> (8 * (size - 3))
    -- the highest bit of the mantissa is its sign
    if compact.testBit 23 then ((size + 1) <<< 24) ||| ((compact >>> 8) &&& 0x7FFFFF)
    else (size <<< 24) ||| (compact &&& 0x7FFFFF)

/-- The division by a difficulty that is scaled to zero raises an exception. -/
def difficultyToShareNbits (diff : ℚ) : Option ℕ :=
  let diff := if diff ≤ 0 then 1 else diff
  let scaled := ⌊diff * 2 ^ 16⌋.toNat
  if scaled = 0 then none else some (targetToBits (diff1Target * 2 ^ 16 / scaled))

/-- A difficulty of zero is replaced by one. -/
def workerDiff (difficulty : ℚ) : ℚ := if difficulty = 0 then 1 else difficulty

section handlers

variable {π : Type*} (packages : PearlPackages π)

def handleSubmitProof (template : Option GatewayTemplate) (plainProofB64 : List Char)
    (difficulty : ℚ) : Option PearlProofResult :=
  match template with
  | none => some { valid := false, meetsNetworkTarget := false, error := some "stale job" }
  | some template =>
      match deserializePlainProof packages plainProofB64 with
      | .error text => some
          { valid := false, meetsNetworkTarget := false
            error := some ("bad proof data: " ++ text) }
      | .ok plainProof =>
          match difficultyToShareNbits (workerDiff difficulty) with
          | none => none
          | some shareNbits =>
              let verify := packages.verifyPlainProof template.requiredCertVersion
                template.incompleteHeader plainProof
              if (verify (some shareNbits)).1 then
                let result : PearlProofResult :=
                  { valid := true, meetsNetworkTarget := false
                    shareDifficulty := workerDiff difficulty
                    networkDifficulty := difficultyFromTarget template.target }
                if (verify none).1 then
                  match packages.generateBlock plainProof template with
                  | .error text => some { result with error := some ("generate_block: " ++ text) }
                  | .ok block => some
                      { result with
                        meetsNetworkTarget := true
                        blockHex := some (toHexString block.serialize)
                        blockHash := some (toHexString block.headerHash.reverse) }
                else some result
              else some
                { valid := false, meetsNetworkTarget := false
                  error := some ("verify_plain_proof: " ++ (verify (some shareNbits)).2) }

/-- Whether a proof meets the share target of a difficulty. -/
def verifies (template : GatewayTemplate) (difficulty : ℚ) (plainProof : π) : Bool :=
  match difficultyToShareNbits (workerDiff difficulty) with
  | none => false
  | some shareNbits => (packages.verifyPlainProof template.requiredCertVersion
      template.incompleteHeader plainProof (some shareNbits)).1

variable {packages} {template : GatewayTemplate} {plainProofB64 : List Char} {difficulty : ℚ}
  {plainProof : π}

/-- A valid result has the difficulty of the worker. -/
theorem exists_handleSubmitProof_of_verifies
    (hproof : deserializePlainProof packages plainProofB64 = .ok plainProof)
    (h : verifies packages template difficulty plainProof) :
    ∃ result, handleSubmitProof packages (some template) plainProofB64 difficulty = some result ∧
      result.valid ∧ result.shareDifficulty = workerDiff difficulty := by
  rw [verifies] at h
  split at h
  · cases h
  · rename_i shareNbits hnbits
    simp only [handleSubmitProof, hproof, hnbits, h, if_true]
    split
    · split
      · exact ⟨_, rfl, rfl, rfl⟩
      · exact ⟨_, rfl, rfl, rfl⟩
    · exact ⟨_, rfl, rfl, rfl⟩

/-- A result is valid only for a proof that verifies. -/
theorem verifies_of_handleSubmitProof {stored : Option GatewayTemplate}
    {result : PearlProofResult}
    (h : handleSubmitProof packages stored plainProofB64 difficulty = some result)
    (hvalid : result.valid) :
    ∃ template plainProof, stored = some template ∧
      deserializePlainProof packages plainProofB64 = .ok plainProof ∧
      verifies packages template difficulty plainProof := by
  rw [handleSubmitProof.eq_def] at h
  split at h
  · cases h
    cases hvalid
  · rename_i template
    split at h
    · cases h
      cases hvalid
    · rename_i plainProof hproof
      split at h
      · cases h
      · rename_i shareNbits hnbits
        refine ⟨template, plainProof, rfl, hproof, ?_⟩
        rw [verifies, hnbits]
        dsimp only at h ⊢
        split at h
        · assumption
        · cases h
          cases hvalid

end handlers

end Miningcore.Pearl

/-!
## Shares of a Pearl pool

A submission names a job of its connection and carries a proof. The job asks the
bridge for its result and compares the difficulty of that with the worker's.

## Implementation notes

A job is referred to by its number in the order in which jobs become current. Both
difficulties of a share are doubles; their quotient is taken exactly. Requests are
those of authorised workers, and no worker has one before there is a job.
-/

namespace Miningcore.Pearl

open Foundation

structure PearlJob where
  jobId : List Char
  blockHeight : ℕ
  previousBlockHash : List Char
  networkDifficulty : ℚ
deriving DecidableEq

def staleJob : String := "Stale job"

def lowDifficulty : String := "Low difficulty share"

def proofVerifyFailed : String := "Proof verification failed"

/-- Whether the quotient of two doubles is below 0.99. That of a divisor of zero is infinite. -/
def isBelow (shareDiff difficulty : ℚ) : Bool :=
  if difficulty = 0 then shareDiff < 0 else shareDiff / difficulty < 99 / 100

/-- What the pool is configured with. -/
structure PearlPool (π : Type*) where
  packages : PearlPackages π
  maxActiveJobs : ℕ := 4
  /-- The text of a double. -/
  doubleToString : ℚ → String

namespace PearlJob

def init (template : PearlBlockTemplate) (jobId : List Char) : PearlJob where
  jobId
  blockHeight := template.height
  previousBlockHash := template.previousBlockHash
  networkDifficulty := template.networkDifficulty

variable {π : Type*} (job : PearlJob) (pool : PearlPool π)

/-- The share of a proof, with the block if it is a candidate. -/
def processShare (worker : WorkerDifficulty) (template : Option GatewayTemplate)
    (plainProofBase64 : List Char) :
    Except SubmitException (MinedShare × Option (List Char)) :=
  match handleSubmitProof pool.packages template plainProofBase64 worker.difficulty with
  | none => .error (.stratum .other proofVerifyFailed)
  | some result =>
      if !result.valid then
        .error (.stratum .other (if result.error.getD "" = "" then proofVerifyFailed
          else result.error.getD ""))
      else
        match stratumDifficulty worker result.meetsNetworkTarget
            (isBelow result.shareDifficulty) with
        | none => .error (.stratum .lowDifficultyShare
            s!"{lowDifficulty} ({pool.doubleToString result.shareDifficulty})")
        | some difficulty =>
            let blockHex :=
              if result.meetsNetworkTarget && result.blockHex.getD [] ≠ [] then result.blockHex
              else none
            .ok ({ blockHeight := job.blockHeight
                   networkDifficulty := some (if 0 < job.networkDifficulty
                     then job.networkDifficulty else result.networkDifficulty)
                   difficulty
                   isBlockCandidate := blockHex.isSome
                   blockHash := if blockHex.isSome then result.blockHash.map String.ofList
                     else none }, blockHex)

variable {job pool} {worker : WorkerDifficulty} {plainProofBase64 : List Char}

theorem isBelow_workerDiff (difficulty : ℚ) :
    isBelow (workerDiff difficulty) difficulty = false := by
  rw [isBelow, workerDiff]
  split
  · decide
  · rename_i hzero
    rw [div_self hzero, decide_eq_false_iff_not]
    norm_num

/-- A proof that verifies for its worker is a share. -/
theorem isSome_processShare_of_verifies {template : GatewayTemplate} {plainProof : π}
    (hproof : deserializePlainProof pool.packages plainProofBase64 = .ok plainProof)
    (h : verifies pool.packages template worker.difficulty plainProof) :
    (job.processShare pool worker (some template) plainProofBase64).toOption.isSome := by
  obtain ⟨result, hresult, hvalid, hdifficulty⟩ := exists_handleSubmitProof_of_verifies hproof h
  have hstratum : stratumDifficulty worker result.meetsNetworkTarget
      (isBelow result.shareDifficulty) = some worker.difficulty := by
    rw [stratumDifficulty, hdifficulty, isBelow_workerDiff, Bool.and_false]
    rfl
  simp [processShare, hresult, hvalid, hstratum, Except.toOption]

/-- The proof of a share verifies for its worker. -/
theorem verifies_of_processShare {stored : Option GatewayTemplate}
    {result : MinedShare × Option (List Char)}
    (h : job.processShare pool worker stored plainProofBase64 = .ok result) :
    ∃ template plainProof, stored = some template ∧
      deserializePlainProof pool.packages plainProofBase64 = .ok plainProof ∧
      verifies pool.packages template worker.difficulty plainProof := by
  rw [processShare] at h
  split at h
  · cases h
  · rename_i proofResult hresult
    split at h
    · cases h
    · rename_i hvalid
      exact verifies_of_handleSubmitProof hresult (by simpa using hvalid)

end PearlJob

/-- A token of the parameters of a request. -/
inductive JToken where
  | null
  | scalar (text : List Char)
  | container

/-- The parameters of a submission. -/
inductive Submission where
  | null
  | object (members : List (String × JToken))
  | array (elements : List JToken)
  | scalar (text : List Char)

/-- `Value<string>` -/
def JToken.value : JToken → Except SubmitException (Option (List Char))
  | null => .ok none
  | scalar text => .ok (some text)
  | container => .error .invalidCast

/-- The value of the first of some members that has one. -/
def firstValue (members : List (String × JToken)) :
    List String → Except SubmitException (Option (List Char))
  | [] => .ok none
  | name :: names =>
      match ((members.lookup name).getD .null).value with
      | .error exception => .error exception
      | .ok (some value) => .ok (some value)
      | .ok none => firstValue members names

/-- The id of the job and the text of the proof. -/
def submitParams : Submission → Except SubmitException (Option (List Char) × Option (List Char))
  | .null => .error .argumentNull
  | .object members =>
      match firstValue members ["jobId", "id", "job_id"] with
      | .error exception => .error exception
      | .ok jobId =>
          match firstValue members ["plainProof", "plain_proof", "proof", "data"] with
          | .error exception => .error exception
          | .ok plainProofData => .ok (jobId, plainProofData)
  | .array elements =>
      match (elements[0]?.getD JToken.null).value with
      | .error exception => .error exception
      | .ok jobId =>
          match (elements[1]?.getD JToken.null).value with
          | .error exception => .error exception
          | .ok plainProofData => .ok (jobId, plainProofData)
  | .scalar _ => .error (.stratum .other "invalid params")

/-- The jobs that were current, the queues of the connections and the templates of the bridge. -/
structure PoolState where
  lastJobId : ℕ := 0
  jobs : List PearlJob := []
  currentJob : Option ℕ := none
  validJobs : String → List ℕ := fun _ => []
  templates : List Char → Option GatewayTemplate := fun _ => none
  contexts : String → WorkerDifficulty

/-- What happens in a pool. A submission comes with the node's answer to its block. -/
inductive Event where
  | updateJob (template : PearlBlockTemplate)
  | createWorkerJob (connectionId : String)
  | setDifficulty (connectionId : String) (difficulty : WorkerDifficulty)
  | submit (connectionId : String) (submission : Submission) (accepted : Bool)

/-- `NextJobId`, whose counter starts again behind the largest `int`. -/
def nextJobId (lastJobId : ℕ) : ℕ × List Char :=
  (if lastJobId + 1 = 2 ^ 31 then 0 else lastJobId + 1, hexText 8 (lastJobId + 1))

namespace PoolState

variable {π : Type*} (pool : PearlPool π) (state : PoolState)

def getCurrentJob : Option PearlJob := state.currentJob.bind fun reference => state.jobs[reference]?

/-- A template on another block makes a job, unless the bridge refuses it. -/
def updateJob (template : PearlBlockTemplate) : PoolState :=
  if state.getCurrentJob.any fun job => job.previousBlockHash = template.previousBlockHash then
    state
  else
    let (lastJobId, jobId) := nextJobId state.lastJobId
    match pool.packages.fromGetBlockTemplate template with
    | .error _ => { state with lastJobId }
    | .ok gatewayTemplate =>
        { state with
          lastJobId
          jobs := state.jobs ++ [PearlJob.init template jobId]
          currentJob := some state.jobs.length
          templates := Function.update state.templates jobId (some gatewayTemplate) }

/-- The current job goes to the end of a queue unless it is there, and the first ones go. -/
def createWorkerJob (connectionId : String) : PoolState :=
  match state.currentJob with
  | none => state
  | some reference =>
      let queue := state.validJobs connectionId
      let queue := if reference ∈ queue then queue else queue ++ [reference]
      { state with
        validJobs := Function.update state.validJobs connectionId
          (queue.drop (queue.length - pool.maxActiveJobs)) }

/-- What an event makes of the pool. -/
def step : Event → PoolState
  | .updateJob template => state.updateJob pool template
  | .createWorkerJob connectionId => state.createWorkerJob pool connectionId
  | .setDifficulty connectionId difficulty =>
      { state with contexts := Function.update state.contexts connectionId difficulty }
  | .submit _ _ _ => state

/-- The first job of a connection with an id. -/
def getJob (connectionId : String) (jobId : List Char) : Option (ℕ × PearlJob) :=
  (state.validJobs connectionId).findSome? fun reference =>
    (state.jobs[reference]?).bind fun job =>
      if job.jobId = jobId then some (reference, job) else none

/-- The job that a submission names, and the text of its proof. -/
def checkSubmission (connectionId : String) (submission : Submission) :
    Except SubmitException (ℕ × PearlJob × List Char) :=
  match submitParams submission with
  | .error exception => .error exception
  | .ok (jobId, plainProofData) =>
      if jobId.getD [] = [] ∨ plainProofData.getD [] = [] then
        .error (.stratum .other "missing submit params")
      else
        match state.getJob connectionId (jobId.getD []) with
        | none => .error (.stratum .jobNotFound staleJob)
        | some (reference, job) => .ok (reference, job, plainProofData.getD [])

/-- The share of a submission. A candidate stays one if the node accepts its block. -/
def submitShare (connectionId : String) (submission : Submission) (accepted : Bool) :
    Except SubmitException MinedShare :=
  match state.checkSubmission connectionId submission with
  | .error exception => .error exception
  | .ok (_, job, plainProofData) =>
      match job.processShare pool (state.contexts connectionId) (state.templates job.jobId)
          plainProofData with
      | .error exception => .error exception
      | .ok (share, _) =>
          .ok (if share.isBlockCandidate then
            { share with
              isBlockCandidate := accepted
              transactionConfirmationData := if accepted then share.blockHash else none }
          else share)

end PoolState

end Miningcore.Pearl

/-!
# Proofs credited twice

Neither the job nor the manager nor the bridge keeps the proofs that were accepted.
A proof is credited as often as it is submitted with a job it verifies for.
-/

namespace Miningcore.Pearl

open Foundation

variable {π : Type*}

/-- A submission that names a job and carries a proof. -/
structure Submitted (π : Type*) where
  reference : ℕ
  plainProof : π
  /-- Whether the proof meets the share target of its worker. -/
  verified : Bool
deriving DecidableEq

namespace Submitted

variable (submitted : Submitted π)

/-- What a share is the proof of. -/
def work : ℕ × π := (submitted.reference, submitted.plainProof)

def goodWork : Option (ℕ × π) := if submitted.verified then some submitted.work else none

variable {submitted}

theorem goodWork_eq_some_iff {work : ℕ × π} :
    submitted.goodWork = some work ↔ submitted.verified ∧ submitted.work = work := by
  rw [goodWork]
  split
  · rename_i hverified
    rw [Option.some.injEq]
    exact ⟨fun h => ⟨hverified, h⟩, fun h => h.2⟩
  · rename_i hverified
    exact iff_of_false (by simp) fun h => hverified h.1

end Submitted

namespace PoolState

variable (pool : PearlPool π) (state : PoolState)

/-- The submission of an event, unless its job or its proof is refused. -/
def submitted : Event → Option (Submitted π)
  | .submit connectionId submission _ =>
      match state.checkSubmission connectionId submission with
      | .error _ => none
      | .ok (reference, job, plainProofData) =>
          (state.templates job.jobId).bind fun template =>
            (deserializePlainProof pool.packages plainProofData).toOption.map fun plainProof =>
              { reference, plainProof
                verified := verifies pool.packages template
                  (state.contexts connectionId).difficulty plainProof }
  | _ => none

/-- The proof of the share of an event, with its job. -/
def accepted : Event → Option (ℕ × π)
  | .submit connectionId submission accepted =>
      match state.submitShare pool connectionId submission accepted with
      | .error _ => none
      | .ok _ => (state.submitted pool (.submit connectionId submission accepted)).map
          Submitted.work
  | _ => none

/-- The proofs of the accepted shares, in the order of the submissions. -/
def acceptedWork (events : List Event) : List (ℕ × π) :=
  (met (PoolState.step pool) state events).filterMap fun p => p.1.accepted pool p.2

variable {pool state}

/-- A share is accepted when its proof verifies, whatever was accepted before. -/
theorem accepted_eq (event : Event) :
    state.accepted pool event = (state.submitted pool event).bind Submitted.goodWork := by
  cases event with
  | submit connectionId submission accepted =>
      rw [PoolState.accepted, submitShare, submitted]
      cases hcheck : state.checkSubmission connectionId submission with
      | error exception => rfl
      | ok checked =>
          obtain ⟨reference, job, plainProofData⟩ := checked
          dsimp only
          cases hshare : job.processShare pool (state.contexts connectionId)
              (state.templates job.jobId) plainProofData with
          | ok result =>
              obtain ⟨template, plainProof, htemplate, hproof, hverifies⟩ :=
                PearlJob.verifies_of_processShare hshare
              simp [htemplate, hproof, hverifies, Except.toOption, Submitted.goodWork]
          | error exception =>
              symm
              rw [Option.bind_eq_none_iff]
              intro found hfound
              obtain ⟨template, htemplate, hmap⟩ := Option.bind_eq_some_iff.mp hfound
              obtain ⟨plainProof, hsome, rfl⟩ := Option.map_eq_some_iff.mp hmap
              have hproof : deserializePlainProof pool.packages plainProofData =
                  .ok plainProof := by
                cases hdeserialize : deserializePlainProof pool.packages plainProofData with
                | error text => simp [hdeserialize, Except.toOption] at hsome
                | ok proof => simpa [hdeserialize, Except.toOption] using hsome
              rw [Submitted.goodWork, if_neg]
              intro hverified
              -- a proof that verifies would have been a share
              have hshares :
                  (job.processShare pool (state.contexts connectionId) (some template)
                    plainProofData).toOption.isSome :=
                PearlJob.isSome_processShare_of_verifies hproof hverified
              rw [← htemplate, hshare] at hshares
              cases hshares
  | updateJob template => rfl
  | createWorkerJob connectionId => rfl
  | setDifficulty connectionId difficulty => rfl

end PoolState

/-- The submissions of a run in the states they meet. -/
def submissions (pool : PearlPool π) (events : List Event) (state : PoolState) :
    List (Submitted π) :=
  submittedAlong (PoolState.submitted pool) (PoolState.step pool) state events

/-- No two submissions bring one job the same proof that verifies for both. -/
def HasDistinctProofs (submissions : List (Submitted π)) : Prop :=
  submissions.Pairwise fun first second =>
    first.verified → second.verified → first.work ≠ second.work

theorem acceptedWork_eq_filterMap (pool : PearlPool π) (events : List Event) (state : PoolState) :
    state.acceptedWork pool events =
      (submissions pool events state).filterMap Submitted.goodWork := by
  rw [PoolState.acceptedWork, submissions, submittedAlong, List.filterMap_filterMap]
  congr 1
  funext p
  exact PoolState.accepted_eq p.2

/-- A run credits no proof twice exactly when no proof that verifies is submitted twice. -/
theorem nodup_acceptedWork_iff (pool : PearlPool π) (events : List Event) (state : PoolState) :
    (state.acceptedWork pool events).Nodup ↔
      HasDistinctProofs (submissions pool events state) := by
  rw [acceptedWork_eq_filterMap, List.Nodup, List.pairwise_filterMap, HasDistinctProofs]
  apply List.Pairwise.iff
  intro first second
  simp only [Submitted.goodWork_eq_some_iff]
  constructor
  · intro h hverified hverified'
    exact h _ ⟨hverified, rfl⟩ _ ⟨hverified', rfl⟩
  · rintro h _ ⟨hverified, rfl⟩ _ ⟨hverified', rfl⟩
    exact h hverified hverified'

namespace OneProof

/-- Packages whose proofs are two bytes. -/
def packages : PearlPackages (List UInt8) where
  fromGetBlockTemplate _ := .ok { incompleteHeader := [], requiredCertVersion := 1, target := 1 }
  fromBase64 text := if text = "q80=".toList then .ok [0xab, 0xcd] else .error "invalid length"
  verifyPlainProof _ _ _ nbits := (nbits.isSome, "")
  generateBlock _ _ := .error ""

def pool : PearlPool (List UInt8) where
  packages
  doubleToString _ := ""

def start : PoolState := { contexts := fun _ => { difficulty := 1 } }

/-- One proof from two connections, as base64 and as digits. -/
def events : List Event :=
  [.updateJob { height := 1, previousBlockHash := [], networkDifficulty := 1 },
    .createWorkerJob "A", .createWorkerJob "B",
    .submit "A" (.array [.scalar "00000001".toList, .scalar "q80=".toList]) false,
    .submit "B" (.object [("id", .scalar "00000001".toList),
      ("proof", .scalar "ABcd".toList)]) false]

end OneProof

open OneProof in
theorem not_nodup_oneProof : ¬ (start.acceptedWork pool events).Nodup := by
  decide +kernel

end Miningcore.Pearl
