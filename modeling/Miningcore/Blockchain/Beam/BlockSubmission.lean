import Miningcore.Blockchain.Beam.BeamJobManager
import Miningcore.Foundation.Interleaving

/-!
# Submissions of Beam blocks

The lines of the node give the pool its jobs and, in the answer to a login, a nonce prefix. A
share that is a block candidate reads the prefix for its request, and the request is sent by
a task that nobody waits for.

## Implementation notes

An event is one access of the code to what lines and submissions share. Jobs and submissions
are referred to by numbers. The explorer's height is `none` if it cannot be asked, and a null
nonce is an empty one. The input of the node's jobs is there.
-/

namespace Miningcore.Beam

open Foundation

structure BeamLoginResponse where
  nonceprefix : Option (List Char)
  forkheight : Option ℕ := none
  forkheight2 : Option ℕ := none
deriving DecidableEq

structure BeamBlockTemplate where
  jobId : Option (List Char) := none
  height : ℕ
  packedDifficulty : ℤ := 0
  input : Option (List Char) := none
  powType : ℕ := 0
deriving DecidableEq

/-- The solver, and what is computed in floating point. -/
structure BeamHash where
  /-- Whether a solution with a nonce is one for a header and a version of the hash. -/
  verify : List UInt8 → List UInt8 → List UInt8 → ℕ → Bool
  sha256S : List UInt8 → List UInt8
  unpackedDifficulty : ℤ → ℚ
  isBlockCandidate : ℚ → List UInt8 → Bool
  isLow : List UInt8 → ℚ → Bool

/-- `Init` -/
def BeamJob.init (solver : BeamHash) (blockTemplate : BeamBlockTemplate) : BeamJob where
  height := blockTemplate.height
  difficulty := solver.unpackedDifficulty blockTemplate.packedDifficulty
  verify solutionBytes nonceBytes :=
    solver.verify (hexToByteArray (blockTemplate.input.getD [])) solutionBytes nonceBytes
      blockTemplate.powType
  sha256S := solver.sha256S
  isBlockCandidate :=
    solver.isBlockCandidate (solver.unpackedDifficulty blockTemplate.packedDifficulty)
  isLow := solver.isLow

structure BeamSubmission where
  connectionId : String
  context : BeamWorkerContext
  jobId : List Char
  nonce : List Char
  solution : List Char

/-- What becomes of a request. -/
inductive Delivery where
  | failed
  | rejected
  | accepted
deriving DecidableEq

structure BeamPool where
  solver : BeamHash
  maxActiveJobs : ℕ

/-- What lines, submissions and their tasks share. -/
structure ManagerState where
  poolNoncePrefix : Option (List Char) := none
  forkheight : Option ℕ := none
  forkheight2 : Option ℕ := none
  /-- The templates of the jobs, which have their ids from them. -/
  jobs : List BeamBlockTemplate := []
  currentJob : Option ℕ := none
  validJobs : String → List ℕ := fun _ => []
  jobStates : ℕ → JobState := fun _ => {}
  /-- The requests of submissions. -/
  requests : ℕ → Option BeamSubmitRequest := fun _ => none
  deliveries : ℕ → Option Delivery := fun _ => none

inductive Event where
  | loginResponse (response : Option BeamLoginResponse)
  | updateJob (explorerHeight : Option ℕ) (json : Option BeamBlockTemplate)
  | reconnect
  | createWorkerJob (connectionId : String)
  | submitShare (number : ℕ)
  | deliver (number : ℕ) (delivery : Delivery)
deriving DecidableEq

/-- How far a submission is. -/
inductive Progress where
  | received
  | refused (code : ℤ)
  | found (reference : ℕ) (blockTemplate : BeamBlockTemplate)
  | candidate (share : MinedShare)
  | prefixed (share : MinedShare)
  | submitted (share : MinedShare)
  | confirmed (share : MinedShare)
  | returned (share : MinedShare)
deriving DecidableEq

def jobNotFound : ℤ := -32008

namespace ManagerState

variable (pool : BeamPool) (state : ManagerState)

/-- Every line in which `job` is not found is read as the answer to a login. -/
def readLoginResponse (response : Option BeamLoginResponse) : ManagerState :=
  { state with
    poolNoncePrefix := response.bind BeamLoginResponse.nonceprefix
    forkheight := (response.bind BeamLoginResponse.forkheight).filter (0 < ·)
    forkheight2 := (response.bind BeamLoginResponse.forkheight2).filter (0 < ·) }

/-- The version of the hash that a template gets from the fork heights. -/
def powType (blockTemplate : BeamBlockTemplate) : ℕ :=
  if state.forkheight2.any (· ≤ blockTemplate.height) then 2
  else if state.forkheight.any (· ≤ blockTemplate.height) then 1
  else blockTemplate.powType

def currentTemplate : Option BeamBlockTemplate := state.currentJob.bind fun job => state.jobs[job]?

def isNew (blockTemplate : BeamBlockTemplate) : Bool :=
  match state.currentTemplate with
  | none => true
  | some job =>
      blockTemplate.input.isSome &&
        (decide (blockTemplate.jobId ≠ job.jobId) || decide (job.height < blockTemplate.height))

/-- A new job has an id, or its `Init` throws. -/
def updateJob (explorerHeight : Option ℕ) (json : Option BeamBlockTemplate) : ManagerState :=
  match explorerHeight with
  | none => state
  | some height =>
      let blockTemplate := json.getD { height }
      let blockTemplate := { blockTemplate with powType := state.powType blockTemplate }
      if state.isNew blockTemplate && !isNullOrEmpty blockTemplate.jobId then
        { state with
          jobs := state.jobs ++ [blockTemplate]
          currentJob := some state.jobs.length }
      else state

/-- The current job goes to the end of the queue of a connection. -/
def createWorkerJob (connectionId : String) : ManagerState :=
  match state.currentJob with
  | none => state
  | some reference =>
      let queue := state.validJobs connectionId
      let queue := if reference ∈ queue then queue else queue ++ [reference]
      { state with
        validJobs := Function.update state.validJobs connectionId
          (queue.drop (queue.length - pool.maxActiveJobs)) }

/-- The first job of a connection with an id. -/
def getJob (connectionId : String) (jobId : List Char) : Option (ℕ × BeamBlockTemplate) :=
  (state.validJobs connectionId).findSome? fun reference =>
    (state.jobs[reference]?).bind fun blockTemplate =>
      if blockTemplate.jobId = some jobId then some (reference, blockTemplate) else none

/-- The task of a request is started. -/
def submitBlock (number : ℕ) (request : BeamSubmitRequest) : ManagerState :=
  { state with requests := Function.update state.requests number (some request) }

/-- A task comes to its end. -/
def deliver (number : ℕ) (delivery : Delivery) : ManagerState :=
  if (state.requests number).isSome && (state.deliveries number).isNone then
    { state with deliveries := Function.update state.deliveries number (some delivery) }
  else state

/-- A step of `SubmitShare`. The prefix is read again for each of its uses. -/
def submitShare (number : ℕ) (submission : BeamSubmission) : Progress → ManagerState × Progress
  | .received =>
      match state.getJob submission.connectionId submission.jobId with
      | none => (state, .refused jobNotFound)
      | some (reference, blockTemplate) => (state, .found reference blockTemplate)
  | .found reference blockTemplate =>
      match (BeamJob.init pool.solver blockTemplate).processShare submission.context
          submission.nonce submission.solution (state.jobStates reference) with
      | (jobState, .error code) =>
          ({ state with jobStates := Function.update state.jobStates reference jobState },
            .refused code)
      | (jobState, .ok share) =>
          let share := { share with transactionConfirmationData := none }
          ({ state with jobStates := Function.update state.jobStates reference jobState },
            if share.isBlockCandidate then .candidate share else .returned share)
  | .candidate share =>
      if isNullOrEmpty state.poolNoncePrefix then
        (state.submitBlock number
          { id := submission.jobId, nonce := submission.nonce, output := submission.solution },
          .submitted share)
      else (state, .prefixed share)
  | .prefixed share =>
      (state.submitBlock number
        { id := submission.jobId
          nonce := state.poolNoncePrefix.getD []
          output := submission.solution },
        .submitted share)
  | .submitted share =>
      (state, .confirmed { share with
        transactionConfirmationData :=
          if isNullOrEmpty state.poolNoncePrefix then some (toString share.blockHeight)
          else share.blockHash })
  | .confirmed share =>
      (state, .returned { share with
        blockHash :=
          if isNullOrEmpty state.poolNoncePrefix then
            some (String.ofList (submission.solution ++ submission.nonce))
          else none })
  | progress => (state, progress)

end ManagerState

section runs

variable (pool : BeamPool) (submissions : ℕ → BeamSubmission)

def act (event : Event) (state : ManagerState) (progress : Progress) : ManagerState × Progress :=
  match event with
  | .loginResponse response => (state.readLoginResponse response, progress)
  | .updateJob explorerHeight json => (state.updateJob explorerHeight json, progress)
  | .reconnect => (state, progress)
  | .createWorkerJob connectionId => (state.createWorkerJob pool connectionId, progress)
  | .submitShare number => state.submitShare pool number (submissions number) progress
  | .deliver number delivery => (state.deliver number delivery, progress)

abbrev System := Interleaved Event ManagerState Progress

/-- The pool at its start. -/
def start : System := ⟨{}, fun _ => .received⟩

/-- The solution of a submission with its nonce has been verified for a template with its id. -/
def IsVerified (number : ℕ) (jobs : List BeamBlockTemplate) : Prop :=
  ∃ blockTemplate ∈ jobs, blockTemplate.jobId = some (submissions number).jobId ∧
    (BeamJob.init pool.solver blockTemplate).verify
      (hexToByteArray (submissions number).solution)
      (hexToByteArray (submissions number).nonce) = true

/-- The request holds the id of the template and the nonce and the solution that were verified for
it, and a share is not returned as a block candidate before the node has received it and has not
rejected it. -/
structure IsCarried (number : ℕ) (state : System) : Prop where
  request : ∀ request ∈ state.store.requests number,
    IsVerified pool submissions number state.store.jobs ∧
      request = {
        id := (submissions number).jobId
        nonce := (submissions number).nonce
        output := (submissions number).solution }
  returned : ∀ share, state.threads (.submitShare number) = .returned share →
    share.isBlockCandidate → state.store.deliveries number = some .accepted

/-- A candidate that has found a prefix reads its own nonce there, and it does not return before its
request is accepted. -/
def IsReady (number : ℕ) (state : System) : Prop :=
  match state.threads (.submitShare number) with
  | .prefixed _ => state.store.poolNoncePrefix.getD [] = (submissions number).nonce
  | .confirmed _ => state.store.deliveries number = some .accepted
  | _ => True

variable {pool submissions} {number : ℕ}

theorem BeamJob.verify_of_processShare {job : BeamJob} {context : BeamWorkerContext}
    {nonce solution : List Char} {state state' : JobState} {share : MinedShare}
    (h : job.processShare context nonce solution state = (state', .ok share)) :
    job.verify (hexToByteArray solution) (hexToByteArray nonce) = true := by
  rw [processShare] at h
  split at h
  · cases h
  · split at h
    · cases h
    · split at h
      · cases h
      · rw [Prod.mk.injEq, processShareInternal, hashShare] at h
        obtain ⟨-, h⟩ := h
        split at h
        · assumption
        · cases h

theorem ManagerState.mem_jobs_of_getJob {state : ManagerState} {connectionId : String}
    {jobId : List Char} {reference : ℕ} {blockTemplate : BeamBlockTemplate}
    (h : state.getJob connectionId jobId = some (reference, blockTemplate)) :
    blockTemplate ∈ state.jobs ∧ blockTemplate.jobId = some jobId := by
  obtain ⟨found, -, hfound⟩ := List.exists_of_findSome?_eq_some h
  obtain ⟨job, hjob, hid⟩ := Option.bind_eq_some_iff.mp hfound
  split at hid
  · rename_i hsame
    cases hid
    exact ⟨List.mem_of_getElem? hjob, hsame⟩
  · cases hid

/-- The steps of a submission that nothing comes between are `Beam.submitShare`. -/
theorem ManagerState.iterate_submitShare (state : ManagerState) (submission : BeamSubmission)
    {reference : ℕ} {blockTemplate : BeamBlockTemplate}
    (hfound : state.getJob submission.connectionId submission.jobId =
      some (reference, blockTemplate)) (hopen : state.requests number = none)
    {final : ManagerState × Progress}
    (hfinal : (fun step : ManagerState × Progress =>
      step.1.submitShare pool number submission step.2)^[6] (state, .received) = final) :
    match Beam.submitShare state.poolNoncePrefix (some (BeamJob.init pool.solver blockTemplate))
      submission.context submission.jobId submission.nonce submission.solution
      (state.jobStates reference) with
    | (_, .error code) => final.2 = .refused code ∧ final.1.requests number = none
    | (_, .ok (share, request)) =>
        final.2 = .returned share ∧ final.1.requests number = request := by
  have hfirst : state.submitShare pool number submission .received =
      (state, .found reference blockTemplate) := by
    rw [submitShare, hfound]
  rw [Function.iterate_succ_apply, hfirst, Function.iterate_succ_apply] at hfinal
  rw [Beam.submitShare]
  dsimp only at hfinal ⊢
  rw [submitShare] at hfinal
  cases hprocess : (BeamJob.init pool.solver blockTemplate).processShare submission.context
    submission.nonce submission.solution (state.jobStates reference) with
  | mk jobState outcome =>
      rw [hprocess] at hfinal
      cases outcome with
      | error code =>
          subst hfinal
          exact ⟨rfl, hopen⟩
      | ok share =>
          dsimp only at hfinal ⊢
          rw [enrichShare]
          by_cases hcandidate : share.isBlockCandidate
          · rw [if_pos hcandidate] at hfinal
            rw [if_pos hcandidate, if_pos hcandidate, submitRequest]
            by_cases hgiven : isNullOrEmpty state.poolNoncePrefix
            · rw [Function.iterate_succ_apply] at hfinal
              dsimp only at hfinal
              rw [submitShare, if_pos hgiven] at hfinal
              subst hfinal
              rw [if_pos hgiven, if_pos hgiven, if_pos hgiven]
              refine ⟨?_, Function.update_self _ _ _⟩
              simp [submitShare, submitBlock, hgiven]
            · rw [Function.iterate_succ_apply] at hfinal
              dsimp only at hfinal
              rw [submitShare, if_neg hgiven] at hfinal
              subst hfinal
              rw [if_neg hgiven, if_neg hgiven, if_neg hgiven]
              refine ⟨?_, Function.update_self _ _ _⟩
              simp [submitShare, submitBlock, hgiven]
          · rw [if_neg hcandidate] at hfinal
            rw [if_neg hcandidate, if_neg hcandidate]
            subst hfinal
            exact ⟨rfl, hopen⟩

theorem IsVerified.mono {jobs jobs' : List BeamBlockTemplate} (hjobs : jobs ⊆ jobs')
    (h : IsVerified pool submissions number jobs) : IsVerified pool submissions number jobs' := by
  obtain ⟨blockTemplate, hmem, hverified⟩ := h
  exact ⟨blockTemplate, hjobs hmem, hverified⟩

section frames

variable {event : Event} {state : ManagerState} {progress : Progress}

/-- The lines of the node add jobs. -/
theorem ManagerState.updateJob_frame (explorerHeight : Option ℕ) (json : Option BeamBlockTemplate) :
    state.jobs ⊆ (state.updateJob explorerHeight json).jobs ∧
      (state.updateJob explorerHeight json).requests = state.requests ∧
      (state.updateJob explorerHeight json).deliveries = state.deliveries := by
  cases explorerHeight with
  | none => exact ⟨List.Subset.refl _, rfl, rfl⟩
  | some height =>
      dsimp only [updateJob]
      split
      · exact ⟨List.subset_append_left _ _, rfl, rfl⟩
      · exact ⟨List.Subset.refl _, rfl, rfl⟩

theorem ManagerState.createWorkerJob_frame (connectionId : String) :
    (state.createWorkerJob pool connectionId).jobs = state.jobs ∧
      (state.createWorkerJob pool connectionId).requests = state.requests ∧
      (state.createWorkerJob pool connectionId).deliveries = state.deliveries := by
  rw [createWorkerJob]
  split
  · exact ⟨rfl, rfl, rfl⟩
  · exact ⟨rfl, rfl, rfl⟩

/-- A submission creates no jobs and delivers nothing. -/
theorem ManagerState.submitShare_frame (submission : BeamSubmission) :
    (state.submitShare pool number submission progress).1.jobs = state.jobs ∧
      (state.submitShare pool number submission progress).1.deliveries = state.deliveries := by
  cases progress with
  | received =>
      rw [submitShare]
      split
      · exact ⟨rfl, rfl⟩
      · exact ⟨rfl, rfl⟩
  | found reference blockTemplate =>
      rw [submitShare]
      split
      · exact ⟨rfl, rfl⟩
      · exact ⟨rfl, rfl⟩
  | candidate share =>
      rw [submitShare]
      split
      · exact ⟨rfl, rfl⟩
      · exact ⟨rfl, rfl⟩
  | refused code => exact ⟨rfl, rfl⟩
  | prefixed share => exact ⟨rfl, rfl⟩
  | submitted share => exact ⟨rfl, rfl⟩
  | confirmed share => exact ⟨rfl, rfl⟩
  | returned share => exact ⟨rfl, rfl⟩

/-- A submission makes no request but its own. -/
theorem ManagerState.requests_submitShare {other : ℕ} (hother : number ≠ other)
    (submission : BeamSubmission) :
    (state.submitShare pool other submission progress).1.requests number =
      state.requests number := by
  cases progress with
  | received =>
      rw [submitShare]
      split
      · rfl
      · rfl
  | found reference blockTemplate =>
      rw [submitShare]
      split
      · rfl
      · rfl
  | candidate share =>
      rw [submitShare]
      split
      · exact Function.update_of_ne hother _ _
      · rfl
  | prefixed share => exact Function.update_of_ne hother _ _
  | refused code => rfl
  | submitted share => rfl
  | confirmed share => rfl
  | returned share => rfl

/-- Jobs stay. -/
theorem jobs_subset_act : state.jobs ⊆ (act pool submissions event state progress).1.jobs := by
  cases event with
  | loginResponse response => exact List.Subset.refl _
  | reconnect => exact List.Subset.refl _
  | updateJob explorerHeight json => exact (ManagerState.updateJob_frame explorerHeight json).1
  | createWorkerJob connectionId =>
      rw [act, (ManagerState.createWorkerJob_frame connectionId).1]
      exact List.Subset.refl _
  | submitShare other =>
      rw [act, (ManagerState.submitShare_frame _).1]
      exact List.Subset.refl _
  | deliver other delivery =>
      rw [act, ManagerState.deliver]
      split
      · exact List.Subset.refl _
      · exact List.Subset.refl _

/-- Just its own steps make the request of a submission. -/
theorem requests_act (h : event ≠ .submitShare number) :
    (act pool submissions event state progress).1.requests number = state.requests number := by
  cases event with
  | loginResponse response => rfl
  | reconnect => rfl
  | updateJob explorerHeight json =>
      rw [act, (ManagerState.updateJob_frame explorerHeight json).2.1]
  | createWorkerJob connectionId =>
      rw [act, (ManagerState.createWorkerJob_frame connectionId).2.1]
  | submitShare other =>
      refine ManagerState.requests_submitShare ?_ _
      rintro rfl
      exact h rfl
  | deliver other delivery =>
      rw [act, ManagerState.deliver]
      split
      · rfl
      · rfl

/-- A request comes to one end only. -/
theorem deliveries_act {delivery : Delivery} (h : state.deliveries number = some delivery) :
    (act pool submissions event state progress).1.deliveries number = some delivery := by
  cases event with
  | loginResponse response => exact h
  | reconnect => exact h
  | updateJob explorerHeight json =>
      rw [act, (ManagerState.updateJob_frame explorerHeight json).2.2]
      exact h
  | createWorkerJob connectionId =>
      rw [act, (ManagerState.createWorkerJob_frame connectionId).2.2]
      exact h
  | submitShare other =>
      rw [act, (ManagerState.submitShare_frame _).2]
      exact h
  | deliver other delivery' =>
      rw [act, ManagerState.deliver]
      split
      · rename_i hopen
        have hother : number ≠ other := by
          rintro rfl
          rw [h] at hopen
          simp at hopen
        exact (Function.update_of_ne hother _ _).trans h
      · exact h

end frames

/-- What is known of a submission that is on its way. -/
def IsSound (pool : BeamPool) (submissions : ℕ → BeamSubmission) (number : ℕ)
    (jobs : List BeamBlockTemplate) : Progress → Prop
  | .found _ blockTemplate =>
      blockTemplate ∈ jobs ∧ blockTemplate.jobId = some (submissions number).jobId
  | .candidate share => share.isBlockCandidate ∧ IsVerified pool submissions number jobs
  | .prefixed share => share.isBlockCandidate ∧ IsVerified pool submissions number jobs
  | .submitted share => share.isBlockCandidate
  | .confirmed share => share.isBlockCandidate
  | _ => True

theorem IsSound.mono {jobs jobs' : List BeamBlockTemplate} {progress : Progress}
    (hjobs : jobs ⊆ jobs') (h : IsSound pool submissions number jobs progress) :
    IsSound pool submissions number jobs' progress := by
  cases progress with
  | found reference blockTemplate => exact ⟨hjobs h.1, h.2⟩
  | candidate share => exact ⟨h.1, h.2.mono hjobs⟩
  | prefixed share => exact ⟨h.1, h.2.mono hjobs⟩
  | submitted share => exact h
  | confirmed share => exact h
  | received => exact trivial
  | refused code => exact trivial
  | returned share => exact trivial

theorem IsSound.submitShare {state : ManagerState} {progress : Progress}
    (h : IsSound pool submissions number state.jobs progress) :
    IsSound pool submissions number state.jobs
      (state.submitShare pool number (submissions number) progress).2 := by
  cases progress with
  | received =>
      rw [ManagerState.submitShare]
      split
      · exact trivial
      · rename_i hfound
        exact ManagerState.mem_jobs_of_getJob hfound
  | found reference blockTemplate =>
      rw [ManagerState.submitShare]
      split
      · exact trivial
      · rename_i hprocess
        dsimp only
        split
        · rename_i hcandidate
          exact ⟨hcandidate, blockTemplate, h.1, h.2, BeamJob.verify_of_processShare hprocess⟩
        · exact trivial
  | candidate share =>
      rw [ManagerState.submitShare]
      split
      · exact h.1
      · exact h
  | prefixed share => exact h.1
  | submitted share => exact h
  | refused code => exact trivial
  | confirmed share => exact trivial
  | returned share => exact trivial

theorem isSound_run (schedule : List Event) :
    IsSound pool submissions number
      (Interleaved.run (act pool submissions) start schedule).store.jobs
      ((Interleaved.run (act pool submissions) start schedule).threads (.submitShare number)) := by
  apply Interleaved.run_invariant (P := fun state : System =>
    IsSound pool submissions number state.store.jobs (state.threads (.submitShare number)))
  · intro state event h
    by_cases hsame : event = .submitShare number
    · subst hsame
      rw [Interleaved.threads_step_self, Interleaved.store_step, act,
        (ManagerState.submitShare_frame _).1]
      exact h.submitShare
    · rw [Interleaved.threads_step_of_ne (Ne.symm hsame), Interleaved.store_step]
      exact h.mono jobs_subset_act
  · exact trivial

/-- The steps of the others change nothing about a submission that is carried. -/
theorem IsCarried.step_of_ne {state : System} {event : Event} (hother : event ≠ .submitShare number)
    (h : IsCarried pool submissions number state) :
    IsCarried pool submissions number (state.step (act pool submissions) event) := by
  constructor
  · intro request hrequest
    rw [Interleaved.store_step, requests_act hother] at hrequest
    obtain ⟨hverified, hrequest⟩ := h.request request hrequest
    exact ⟨hverified.mono jobs_subset_act, hrequest⟩
  · intro share hreturned hcandidate
    rw [Interleaved.threads_step_of_ne (Ne.symm hother)] at hreturned
    exact deliveries_act (h.returned share hreturned hcandidate)

/-- What a submission's own step leaves of the state. -/
theorem store_submitShare (state : System) (number : ℕ) :
    (state.step (act pool submissions) (.submitShare number)).store =
      (state.store.submitShare pool number (submissions number)
        (state.threads (.submitShare number))).1 := rfl

theorem thread_submitShare (state : System) (number : ℕ) :
    (state.step (act pool submissions) (.submitShare number)).threads (.submitShare number) =
      (state.store.submitShare pool number (submissions number)
        (state.threads (.submitShare number))).2 :=
  Interleaved.threads_step_self

/-- A step without a request keeps a submission carried when it returns no candidate that has not
been accepted. -/
theorem IsCarried.submitShare_of_quiet {state : System}
    (h : IsCarried pool submissions number state)
    (hrequests : (state.step (act pool submissions) (.submitShare number)).store.requests number =
      state.store.requests number)
    (hreturned : ∀ share,
      (state.step (act pool submissions) (.submitShare number)).threads (.submitShare number) =
        .returned share → share.isBlockCandidate →
          state.store.deliveries number = some .accepted) :
    IsCarried pool submissions number
      (state.step (act pool submissions) (.submitShare number)) := by
  constructor
  · intro request hrequest
    rw [hrequests] at hrequest
    rw [store_submitShare, (ManagerState.submitShare_frame _).1]
    exact h.request request hrequest
  · rw [store_submitShare, (ManagerState.submitShare_frame _).2]
    exact hreturned

/-- The request of a verified submission carries it just if it has the nonce of the submission. -/
theorem isCarried_of_submitBlock_iff {state : System} {share : MinedShare} {nonce : List Char}
    (hverified : IsVerified pool submissions number state.store.jobs)
    (hstep : state.store.submitShare pool number (submissions number)
      (state.threads (.submitShare number)) =
        (state.store.submitBlock number
          { id := (submissions number).jobId, nonce, output := (submissions number).solution },
          .submitted share)) :
    IsCarried pool submissions number
        (state.step (act pool submissions) (.submitShare number)) ↔
      nonce = (submissions number).nonce := by
  have hrequest : (state.step (act pool submissions) (.submitShare number)).store.requests
      number = some
        { id := (submissions number).jobId, nonce, output := (submissions number).solution } := by
    rw [store_submitShare, hstep]
    exact Function.update_self _ _ _
  constructor
  · intro hcarried
    have hsame := (hcarried.request _ hrequest).2
    rw [BeamSubmitRequest.mk.injEq] at hsame
    exact hsame.2.1
  · rintro rfl
    constructor
    · intro request hmem
      rw [hrequest, Option.mem_some_iff] at hmem
      rw [store_submitShare, hstep]
      exact ⟨hverified, hmem.symm⟩
    · intro share' hreturned
      rw [thread_submitShare, hstep] at hreturned
      cases hreturned

/-- A step of a submission that is carried keeps this just if the submission is ready for it. -/
theorem isCarried_submitShare_iff {state : System}
    (hsound : IsSound pool submissions number state.store.jobs
      (state.threads (.submitShare number)))
    (h : IsCarried pool submissions number state) :
    IsCarried pool submissions number
        (state.step (act pool submissions) (.submitShare number)) ↔
      IsReady submissions number state := by
  have hstore := @store_submitShare pool submissions state number
  have hthread := @thread_submitShare pool submissions state number
  rw [IsReady]
  cases hprogress : state.threads (.submitShare number) with
  | received =>
      rw [hprogress, ManagerState.submitShare] at hstore hthread
      refine iff_of_true (h.submitShare_of_quiet ?_ ?_) trivial
      · rw [hstore]
        split
        · rfl
        · rfl
      · intro share hreturned
        rw [hthread] at hreturned
        split at hreturned
        · cases hreturned
        · cases hreturned
  | found reference blockTemplate =>
      rw [hprogress, ManagerState.submitShare] at hstore hthread
      refine iff_of_true (h.submitShare_of_quiet ?_ ?_) trivial
      · rw [hstore]
        split
        · rfl
        · rfl
      · intro share hreturned hcandidate
        rw [hthread] at hreturned
        split at hreturned
        · cases hreturned
        · dsimp only at hreturned
          split at hreturned
          · cases hreturned
          · rename_i hnot
            cases hreturned
            exact absurd hcandidate hnot
  | candidate share =>
      rw [hprogress] at hsound
      by_cases hgiven : isNullOrEmpty state.store.poolNoncePrefix
      · refine iff_of_true ?_ trivial
        apply (@isCarried_of_submitBlock_iff _ _ _ _ share _ hsound.2 ?_).mpr rfl
        rw [hprogress, ManagerState.submitShare, if_pos hgiven]
      · rw [hprogress, ManagerState.submitShare, if_neg hgiven] at hstore hthread
        refine iff_of_true (h.submitShare_of_quiet ?_ ?_) trivial
        · rw [hstore]
        · intro share' hreturned
          rw [hthread] at hreturned
          cases hreturned
  | prefixed share =>
      rw [hprogress] at hsound
      apply isCarried_of_submitBlock_iff hsound.2
      rw [hprogress, ManagerState.submitShare]
  | submitted share =>
      rw [hprogress] at hstore hthread
      refine iff_of_true (h.submitShare_of_quiet ?_ ?_) trivial
      · rw [hstore]
        rfl
      · intro share' hreturned
        rw [hthread] at hreturned
        cases hreturned
  | confirmed share =>
      rw [hprogress] at hstore hthread hsound
      constructor
      · intro hcarried
        have haccepted := hcarried.returned _ hthread hsound
        rw [hstore] at haccepted
        exact haccepted
      · intro haccepted
        refine h.submitShare_of_quiet ?_ fun _ _ _ => haccepted
        rw [hstore]
        rfl
  | refused code =>
      rw [hprogress] at hstore hthread
      refine iff_of_true (h.submitShare_of_quiet ?_ ?_) trivial
      · rw [hstore]
        rfl
      · intro share hreturned
        rw [hthread] at hreturned
        cases hreturned
  | returned share =>
      rw [hprogress] at hstore hthread
      refine iff_of_true (h.submitShare_of_quiet ?_ ?_) trivial
      · rw [hstore]
        rfl
      · intro share' hreturned
        rw [hthread] at hreturned
        cases hreturned
        exact h.returned share hprogress

/-- In all states of a run the submissions are carried, just if every step of them finds what it
needs. -/
theorem submissions_carried_iff (pool : BeamPool) (submissions : ℕ → BeamSubmission)
    (schedule : List Event) :
    (∀ number, Interleaved.Always (act pool submissions) (IsCarried pool submissions number) start
        schedule) ↔
      ∀ number, Interleaved.BeforeSteps (act pool submissions) (IsReady submissions number) start
        schedule (.submitShare number) := by
  refine forall_congr' fun number => ?_
  apply Interleaved.always_iff_beforeSteps
  · constructor
    · intro request hrequest
      cases hrequest
    · intro share hreturned
      cases hreturned
  · intro schedule event h
    rw [Interleaved.run_concat]
    by_cases hsame : event = .submitShare number
    · subst hsame
      rw [isCarried_submitShare_iff (isSound_run schedule) h]
      exact ⟨fun hready _ => hready, fun hready => hready rfl⟩
    · exact iff_of_true (h.step_of_ne hsame) fun heq => absurd heq hsame

end runs

namespace PrefixedNode

/-- Every solution is one, and a block. -/
def pool : BeamPool where
  solver :=
    { verify _ _ _ _ := true
      sha256S := id
      unpackedDifficulty _ := 1
      isBlockCandidate _ _ := true
      isLow _ _ := false }
  maxActiveJobs := 4

def submissions (_ : ℕ) : BeamSubmission where
  connectionId := "m"
  context := { difficulty := 1 }
  jobId := ['7']
  nonce := List.replicate nonceSize '1'
  solution := List.replicate solutionSize '2'

/-- The node has answered the login with a prefix, and rejects the block. -/
def schedule : List Event :=
  [.loginResponse (some { nonceprefix := some ['a', 'b'] }),
    .updateJob (some 1) (some { jobId := some ['7'], height := 1, input := some [] }),
    .createWorkerJob "m"] ++
  List.replicate 5 (.submitShare 0) ++ [.deliver 0 .rejected, .submitShare 0]

end PrefixedNode

open PrefixedNode in
/-- The request holds the prefix in place of the nonce, and the node's refusal leaves the share a
candidate. -/
theorem not_isCarried_prefixed :
    (Interleaved.run (act pool submissions) start schedule).store.requests 0 =
        some { id := ['7'], nonce := ['a', 'b'], output := (submissions 0).solution } ∧
      (Interleaved.run (act pool submissions) start schedule).store.deliveries 0 =
        some .rejected ∧
      ¬ ∀ number, Interleaved.Always (act pool submissions) (IsCarried pool submissions number)
        start schedule := by
  have hrequest : (Interleaved.run (act pool submissions) start schedule).store.requests 0 =
      some { id := ['7'], nonce := ['a', 'b'], output := (submissions 0).solution } := by
    decide +kernel
  refine ⟨hrequest, by decide +kernel, fun h => ?_⟩
  have hsame := ((h 0 schedule (List.prefix_refl _)).request _ hrequest).2
  rw [BeamSubmitRequest.mk.injEq] at hsame
  exact absurd hsame.2.1 (by decide)

end Miningcore.Beam
