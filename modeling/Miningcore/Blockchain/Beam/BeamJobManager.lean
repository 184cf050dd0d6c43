import Miningcore.Persistence.Repositories
import Miningcore.Stratum.Submission

/-!
# Shares and recorded blocks of Beam

A submission brings a nonce and a solution of a fixed length in characters. Their
texts are registered one behind the other, and their bytes are verified.

## Implementation notes

The input of a job does not change, so the solver is a function of the solution
and the nonce. A refused submission has its code. The registry holds its texts
without their case.
-/

namespace Miningcore.Beam

open Foundation

abbrev BeamWorkerContext := WorkerDifficulty

structure BeamJob where
  height : ℕ
  difficulty : ℚ
  /-- Whether the solver verifies a solution with a nonce. -/
  verify : List UInt8 → List UInt8 → Bool
  /-- The hash of a solution. -/
  sha256S : List UInt8 → List UInt8
  /-- Whether the share-diff of a hash meets the difficulty of the block. -/
  isBlockCandidate : List UInt8 → Bool
  /-- Whether the share-diff of a hash is below 0.99 of a difficulty. -/
  isLow : List UInt8 → ℚ → Bool

structure JobState where
  submissions : List (List Char) := []
deriving DecidableEq

def nonceSize : ℕ := 16

def solutionSize : ℕ := 208

def shareBadNonce : ℤ := -32007

def shareBadSolution : ℤ := -32004

def duplicateShare : ℤ := -32006

def invalidShare : ℤ := -32008

def lowDifficultyShare : ℤ := -32009

/-- `TryAdd` on the registry, which ignores the case. -/
def registerSubmit (state : JobState) (nonce solution : List Char) : Option JobState :=
  let key := ignoringCase (nonce ++ solution)
  if state.submissions.contains key then none
  else some { submissions := key :: state.submissions }

namespace BeamJob

variable (job : BeamJob)

/-- The share of a solution and a nonce. -/
def hashShare (context : BeamWorkerContext) (solutionBytes nonceBytes : List UInt8) :
    Except ℤ MinedShare :=
  if job.verify solutionBytes nonceBytes then
    let solutionHash := job.sha256S solutionBytes
    let isBlockCandidate := job.isBlockCandidate solutionHash
    match stratumDifficulty context isBlockCandidate (job.isLow solutionHash) with
    | none => .error lowDifficultyShare
    | some difficulty => .ok {
        blockHeight := job.height
        networkDifficulty := some job.difficulty
        difficulty
        isBlockCandidate
        blockHash :=
          if isBlockCandidate then some (String.ofList (toHexString solutionHash)) else none }
  else .error invalidShare

def processShareInternal (context : BeamWorkerContext) (nonce solution : List Char) :
    Except ℤ MinedShare :=
  job.hashShare context (hexToByteArray solution) (hexToByteArray nonce)

def processShare (context : BeamWorkerContext) (nonce solution : List Char) (state : JobState) :
    JobState × Except ℤ MinedShare :=
  if nonce.length ≠ nonceSize then (state, .error shareBadNonce)
  else if solution.length ≠ solutionSize then (state, .error shareBadSolution)
  else
    match registerSubmit state nonce solution with
    | none => (state, .error duplicateShare)
    | some state => (state, job.processShareInternal context nonce solution)

end BeamJob

/-!
## Recorded Beam blocks

What identifies a block that was sent to the node depends on whether the node has
given the pool a nonce prefix: its solution and nonce, or only confirmation data.
-/

def isNullOrEmpty (text : Option (List Char)) : Bool := text.getD [] = []

structure BeamSubmitRequest where
  id : List Char
  nonce : List Char
  output : List Char
deriving DecidableEq

/-- The block that is sent to the node for a candidate. -/
def submitRequest (poolNoncePrefix : Option (List Char)) (jobId nonce solution : List Char) :
    BeamSubmitRequest where
  id := jobId
  nonce := if isNullOrEmpty poolNoncePrefix then nonce else poolNoncePrefix.getD []
  output := solution

/-- What the share of a candidate keeps of its block. -/
def enrichShare (poolNoncePrefix : Option (List Char)) (nonce solution : List Char)
    (share : MinedShare) : MinedShare :=
  if share.isBlockCandidate then
    { share with
      transactionConfirmationData :=
        if isNullOrEmpty poolNoncePrefix then some (toString share.blockHeight)
        else share.blockHash
      blockHash :=
        if isNullOrEmpty poolNoncePrefix then some (String.ofList (solution ++ nonce)) else none }
  else { share with transactionConfirmationData := none }

/-- The share of a submission, with the request that is sent if it is a candidate. -/
def submitShare (poolNoncePrefix : Option (List Char)) (job : Option BeamJob)
    (context : BeamWorkerContext) (jobId nonce solution : List Char) (state : JobState) :
    JobState × Except ℤ (MinedShare × Option BeamSubmitRequest) :=
  match job with
  | none => (state, .error invalidShare)
  | some job =>
      match job.processShare context nonce solution state with
      | (state, .error code) => (state, .error code)
      | (state, .ok share) =>
          (state, .ok (enrichShare poolNoncePrefix nonce solution share,
            if share.isBlockCandidate then
              some (submitRequest poolNoncePrefix jobId nonce solution) else none))

/-- The pending row of a candidate. -/
def recordedBlock (id : ℕ) (poolId miner : String) (created : DateTime) (share : MinedShare) :
    Block where
  id
  poolId
  blockHeight := share.blockHeight
  transactionConfirmationData := share.transactionConfirmationData.getD ""
  miner
  reward := 0
  hash := share.blockHash
  created

section candidate

variable {job : BeamJob} {context : BeamWorkerContext} {jobId nonce solution : List Char}
  {poolNoncePrefix : Option (List Char)}

theorem blockHash_of_hashShare {solutionBytes nonceBytes : List UInt8} {share : MinedShare}
    (h : job.hashShare context solutionBytes nonceBytes = .ok share)
    (hcandidate : share.isBlockCandidate) :
    share.blockHash = some (String.ofList (toHexString (job.sha256S solutionBytes))) := by
  rw [BeamJob.hashShare] at h
  split at h
  · dsimp only at h
    split at h
    · cases h
    · cases h
      exact if_pos hcandidate
  · cases h

/-- Where the share of a block that is sent comes from. -/
theorem exists_hashShare_of_submitShare {state state' : JobState} {share : MinedShare}
    {request : BeamSubmitRequest}
    (h : submitShare poolNoncePrefix (some job) context jobId nonce solution state =
      (state', .ok (share, some request))) :
    nonce.length = nonceSize ∧ ∃ mined,
      job.hashShare context (hexToByteArray solution) (hexToByteArray nonce) = .ok mined ∧
        mined.isBlockCandidate ∧ share = enrichShare poolNoncePrefix nonce solution mined := by
  rw [submitShare, BeamJob.processShare] at h
  by_cases hnonce : nonce.length = nonceSize
  · refine ⟨hnonce, ?_⟩
    rw [if_neg (not_not.mpr hnonce)] at h
    by_cases hsolution : solution.length = solutionSize
    · rw [if_neg (not_not.mpr hsolution)] at h
      cases hregister : registerSubmit state nonce solution with
      | none => simp [hregister] at h
      | some registered =>
          rw [hregister] at h
          dsimp only [BeamJob.processShareInternal] at h
          cases hshare : job.hashShare context (hexToByteArray solution)
              (hexToByteArray nonce) with
          | error code => simp [hshare] at h
          | ok mined =>
              rw [hshare] at h
              simp only [Prod.mk.injEq, Except.ok.injEq] at h
              obtain ⟨-, hshare, hcandidate⟩ := h
              refine ⟨mined, rfl, ?_, hshare.symm⟩
              by_contra hnone
              rw [if_neg hnone] at hcandidate
              cases hcandidate
    · simp [hsolution] at h
  · simp [hnonce] at h

end candidate

end Miningcore.Beam
