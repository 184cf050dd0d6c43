import Miningcore.Blockchain.Cryptonote.CryptonoteJob
import Miningcore.Foundation.Registry
import Miningcore.Mining.WorkerContextBase

/-!
# Requests of a Cryptonote or Conceal pool

Every connection is sent worker jobs made out of the current job. A submission names
one of them, and is checked against the job that is current then if it is of the
same height.

## Implementation notes

A job is referred to by its number in the order in which jobs become current, and
so is a worker job in the order in which they are prepared. Requests are those of
authorised workers.
-/

namespace Miningcore.Cryptonote

open Foundation Mining

structure CryptonoteWorkerJob where
  id : List Char
  height : ℕ
  extraNonce : ℕ
deriving DecidableEq

/-- A worker job with the number of the job that it was prepared from, which the code does not
keep. -/
structure PreparedJob extends CryptonoteWorkerJob where
  preparedFrom : ℕ
deriving DecidableEq

structure CryptonoteSubmitShareRequest where
  workerId : String
  jobId : List Char
  nonce : Option (List Char)
  hash : List Char

structure PoolState where
  /-- The jobs that became current. -/
  jobs : List CryptonoteJob := []
  /-- The last extranonce that the current job has given out. -/
  extraNonce : ℕ := 0
  currentJobId : ℕ := 0
  workerJobs : WorkerJobs PreparedJob := {}
  contexts : String → WorkerDifficulty

/-- What happens in a pool. Logins, `getjob` requests and new jobs create worker jobs; a submission
comes with the node's answer to its block. -/
inductive Event where
  | updateJob (blockTemplate : BlockTemplate)
  | createWorkerJob (connectionId : String)
  | setDifficulty (connectionId : String) (difficulty : WorkerDifficulty)
  | submit (connectionId : String) (request : CryptonoteSubmitShareRequest) (accepted : Bool)

/-- The worker jobs whose submissions have a text. -/
abbrev Registry := List (ℕ × List Char)

/-- The hash of the previous block, in the blob of a template. -/
def newHash (blockTemplate : BlockTemplate) : Option (List Char) :=
  let bytes := ((hexToByteArray blockTemplate.blob).drop 7).take 32
  if bytes.length = 32 then some (toHexString bytes) else none

/-- `PrepareWorkerJob`, with what it leaves of the extranonce. -/
def CryptonoteJob.prepareWorkerJob (job : CryptonoteJob) (id : List Char) (extraNonce : ℕ) :
    CryptonoteWorkerJob × ℕ :=
  let (workerExtraNonce, extraNonce) := nextExtraNonce extraNonce
  ({ id, height := job.blockTemplate.height, extraNonce := workerExtraNonce }, extraNonce)

/-- Whether a worker job comes with a blob and a target. -/
def isSent (pool : CryptonotePool) (job : CryptonoteJob) (workerExtraNonce : ℕ)
    (difficulty : ℚ) : Bool :=
  (job.encodeBlob pool workerExtraNonce).getD [] ≠ [] &&
    (encodeTarget difficulty).getD [] ≠ []

namespace PoolState

variable (pool : CryptonotePool) (state : PoolState)

def currentJob : Option CryptonoteJob := state.jobs.getLast?

/-- A template on another block makes a job. -/
def updateJob (blockTemplate : BlockTemplate) : PoolState :=
  match newHash blockTemplate with
  | none => state
  | some newHash =>
      if state.currentJob.any fun job => newHash = job.prevHash then state
      else
        match CryptonoteJob.init pool blockTemplate newHash with
        | none => state
        | some job => { state with jobs := state.jobs ++ [job], extraNonce := 0 }

/-- A worker job, which goes to the connection if it can be sent. -/
def createWorkerJob (connectionId : String) : PoolState :=
  let currentJobId := state.currentJobId + 1
  match state.currentJob with
  | none => { state with currentJobId }
  | some job =>
      let (workerJob, extraNonce) :=
        job.prepareWorkerJob (Nat.toDigits 10 currentJobId) state.extraNonce
      let prepared : PreparedJob :=
        { toCryptonoteWorkerJob := workerJob, preparedFrom := state.jobs.length - 1 }
      { state with
        extraNonce
        currentJobId
        workerJobs :=
          if isSent pool job workerJob.extraNonce (state.contexts connectionId).difficulty then
            state.workerJobs.addJob 4 connectionId prepared
          else state.workerJobs.addUnsent prepared }

/-- What an event makes of the pool, the registries aside. -/
def step : Event → PoolState
  | .updateJob blockTemplate => state.updateJob pool blockTemplate
  | .createWorkerJob connectionId => state.createWorkerJob pool connectionId
  | .setDifficulty connectionId difficulty =>
      { state with contexts := Function.update state.contexts connectionId difficulty }
  | .submit _ _ _ => state

/-- The worker job that a request names, and its nonce. -/
def checkRequest (connectionId : String) (request : CryptonoteSubmitShareRequest) :
    Except SubmitException (ℕ × PreparedJob × List Char) :=
  if connectionId ≠ request.workerId then .error (.stratum .minusOne "cheater")
  else
    match state.workerJobs.getJob (fun _ job => job.id = request.jobId) connectionId with
    | none => .error (.stratum .minusOne "invalid jobid")
    | some (reference, workerJob) =>
        match request.nonce with
        | none => .error .argumentNull
        | some nonce => .ok (reference, workerJob, nonce)

/-- `SubmitShareAsync` of the manager. A candidate stays one if the node accepts its block. -/
def submitShare (connectionId : String) (workerJob : CryptonoteWorkerJob) (nonce hash : List Char)
    (accepted : Bool) : Except SubmitException MinedShare :=
  match state.currentJob with
  | none => .error (.stratum .minusOne "block expired")
  | some job =>
      if workerJob.height ≠ job.blockTemplate.height then
        .error (.stratum .minusOne "block expired")
      else
        match pool.processShare job (state.contexts connectionId) nonce workerJob.extraNonce
            hash with
        | .error exception => .error exception
        | .ok (share, _) =>
            let share := { share with networkDifficulty := some job.blockTemplate.difficulty }
            .ok (if share.isBlockCandidate then
              { share with
                isBlockCandidate := accepted
                transactionConfirmationData := if accepted then share.blockHash else none }
            else share)

def onSubmit (connectionId : String) (request : CryptonoteSubmitShareRequest) (accepted : Bool)
    (registry : Registry) : Registry × Except SubmitException MinedShare :=
  match state.checkRequest connectionId request with
  | .error exception => (registry, .error exception)
  | .ok (reference, workerJob, nonce) =>
      if (reference, ignoringCase nonce) ∈ registry then
        (registry, .error (.stratum .minusOne "duplicate share"))
      else
        ((reference, ignoringCase nonce) :: registry,
          state.submitShare pool connectionId workerJob.toCryptonoteWorkerJob nonce request.hash
            accepted)

/-- An event leaves the jobs alone, makes the current job anew, or prepares a worker job from it. -/
theorem step_cases (event : Event) :
    ((state.step pool event).jobs = state.jobs ∧
      (state.step pool event).extraNonce = state.extraNonce ∧
      (state.step pool event).workerJobs.created = state.workerJobs.created) ∨
    (∃ job, (state.step pool event).jobs = state.jobs ++ [job] ∧
      (state.step pool event).extraNonce = 0 ∧
      (state.step pool event).workerJobs.created = state.workerJobs.created) ∨
    (∃ prepared : PreparedJob, state.jobs ≠ [] ∧ (state.step pool event).jobs = state.jobs ∧
      prepared.preparedFrom = state.jobs.length - 1 ∧
      (prepared.extraNonce, (state.step pool event).extraNonce) =
        nextExtraNonce state.extraNonce ∧
      (state.step pool event).workerJobs.created = state.workerJobs.created ++ [prepared]) := by
  cases event with
  | updateJob blockTemplate =>
      simp only [step, updateJob]
      split
      · exact Or.inl ⟨rfl, rfl, rfl⟩
      · split
        · exact Or.inl ⟨rfl, rfl, rfl⟩
        · split
          · exact Or.inl ⟨rfl, rfl, rfl⟩
          · rename_i job hinit
            exact Or.inr (Or.inl ⟨job, rfl, rfl, rfl⟩)
  | createWorkerJob connectionId =>
      simp only [step, createWorkerJob]
      split
      · exact Or.inl ⟨rfl, rfl, rfl⟩
      · rename_i job hcurrent
        have hjobs : state.jobs ≠ [] := by
          intro hnil
          rw [currentJob, hnil] at hcurrent
          cases hcurrent
        refine Or.inr (Or.inr ⟨{
          toCryptonoteWorkerJob := (job.prepareWorkerJob
            (Nat.toDigits 10 (state.currentJobId + 1)) state.extraNonce).1
          preparedFrom := state.jobs.length - 1 }, hjobs, rfl, rfl, rfl, ?_⟩)
        dsimp only
        split
        · rfl
        · rfl
  | setDifficulty connectionId difficulty => exact Or.inl ⟨rfl, rfl, rfl⟩
  | submit connectionId request accepted => exact Or.inl ⟨rfl, rfl, rfl⟩

variable {pool state}

/-- The jobs and worker jobs of a state are also those of another. -/
def Extends (state later : PoolState) : Prop :=
  state.jobs <+: later.jobs ∧ state.workerJobs.created <+: later.workerJobs.created

theorem extends_refl (state : PoolState) : state.Extends state :=
  ⟨List.prefix_rfl, List.prefix_rfl⟩

theorem Extends.trans {first second third : PoolState} (h : first.Extends second)
    (h' : second.Extends third) : first.Extends third :=
  ⟨h.1.trans h'.1, h.2.trans h'.2⟩

theorem extends_step (event : Event) : state.Extends (state.step pool event) := by
  obtain ⟨hjobs, -, hcreated⟩ | ⟨job, hjobs, -, hcreated⟩ | ⟨prepared, -, hjobs, -, -, hcreated⟩ :=
    step_cases pool state event
  · rw [Extends, hjobs, hcreated]
    exact ⟨List.prefix_rfl, List.prefix_rfl⟩
  · rw [Extends, hjobs, hcreated]
    exact ⟨List.prefix_append _ _, List.prefix_rfl⟩
  · rw [Extends, hjobs, hcreated]
    exact ⟨List.prefix_rfl, List.prefix_append _ _⟩

/-- The worker jobs of every job are numbered by their extranonces. -/
structure IsNumbered (state : PoolState) : Prop where
  numbered : NumberedBy PreparedJob.preparedFrom (fun workerJob => workerJob.extraNonce)
    (fun count => count % 2 ^ 31 + 1) state.workerJobs.created
  extraNonce_eq : state.extraNonce =
    classCount PreparedJob.preparedFrom (state.jobs.length - 1) state.workerJobs.created % 2 ^ 31
  preparedFrom_lt : ∀ workerJob ∈ state.workerJobs.created,
    workerJob.preparedFrom < state.jobs.length

theorem isNumbered_start (contexts : String → WorkerDifficulty) :
    IsNumbered { contexts } where
  numbered := numberedBy_nil
  extraNonce_eq := rfl
  preparedFrom_lt workerJob hmem := by cases hmem

theorem IsNumbered.step (h : state.IsNumbered) (event : Event) :
    (state.step pool event).IsNumbered := by
  obtain ⟨hjobs, hextraNonce, hcreated⟩ | ⟨job, hjobs, hextraNonce, hcreated⟩ |
      ⟨prepared, hne, hjobs, hfrom, hnext, hcreated⟩ :=
    step_cases pool state event
  · constructor
    · rw [hcreated]
      exact h.numbered
    · rw [hextraNonce, hjobs, hcreated]
      exact h.extraNonce_eq
    · rw [hjobs, hcreated]
      exact h.preparedFrom_lt
  · -- no worker job comes from the new job yet
    have hnone : classCount PreparedJob.preparedFrom state.jobs.length
        state.workerJobs.created = 0 :=
      classCount_eq_zero fun workerJob hmem => (h.preparedFrom_lt workerJob hmem).ne
    constructor
    · rw [hcreated]
      exact h.numbered
    · rw [hextraNonce, hjobs, hcreated, List.length_append, List.length_singleton,
        Nat.add_sub_cancel, hnone, Nat.zero_mod]
    · rw [hjobs, hcreated, List.length_append]
      exact fun workerJob hmem => (h.preparedFrom_lt workerJob hmem).trans_le (Nat.le_add_right _ _)
  · rw [h.extraNonce_eq, nextExtraNonce_mod, Prod.mk.injEq] at hnext
    constructor
    · rw [hcreated]
      apply h.numbered.concat
      rw [hnext.1, hfrom]
    · rw [hnext.2, hjobs, hcreated, classCount_append, classCount_singleton, if_pos hfrom]
    · rw [hjobs, hcreated]
      intro workerJob hmem
      rw [List.mem_append, List.mem_singleton] at hmem
      obtain hmem | rfl := hmem
      · exact h.preparedFrom_lt workerJob hmem
      · have hpos := List.length_pos_iff.mpr hne
        omega

/-- Worker jobs of one job have different extranonces while there are not too many of them. -/
theorem IsNumbered.reference_unique (h : state.IsNumbered) {number first second : ℕ}
    (hcount : classCount PreparedJob.preparedFrom number state.workerJobs.created < 2 ^ 31)
    {workerJob workerJob' : PreparedJob}
    (hfirst : state.workerJobs.created[first]? = some workerJob)
    (hsecond : state.workerJobs.created[second]? = some workerJob')
    (hfrom : workerJob.preparedFrom = number) (hfrom' : workerJob'.preparedFrom = number)
    (hextraNonce : workerJob.extraNonce = workerJob'.extraNonce) : first = second := by
  apply h.numbered.index_unique _ hfirst hsecond hfrom hfrom' hextraNonce
  intro n hn m hm hnm
  rw [Set.mem_Iio] at hn hm
  dsimp only at hnm
  omega

end PoolState

end Miningcore.Cryptonote
