import Miningcore.Mining.WorkerContextBase
import Miningcore.Stratum.Submission
import Miningcore.Foundation.Registry

/-!
# Shares of a Zano job

The header that is hashed comes from the block template, and so does the id of the
worker jobs. Every worker job keeps the nonces that were submitted to it.

## Implementation notes

The native functions and the light cache are functions of bytes. The registries of
all worker jobs are one list of their numbers and texts. Requests are those of
authorised workers; in their parameters an empty text stands for null as well.
-/

namespace Miningcore.Zano

open Foundation Mining

abbrev ZanoWorkerContext := WorkerDifficulty

structure ZanoJob where
  blobTemplate : List UInt8
  height : ℕ
  prevHash : List Char
  shareMultiplier : ℚ
  getBlobId : List UInt8 → List UInt8
  convertBlock : List UInt8 → ℕ → List UInt8
  getBlockId : List UInt8 → List UInt8
  /-- The result of a header and a nonce, as a number. -/
  compute : List UInt8 → ℕ → Option ℕ
  /-- Whether the share-diff of a result meets the difficulty of the block. -/
  isBlockCandidate : ℕ → Bool
  /-- Whether the share-diff of a result is below 0.99 of a difficulty. -/
  isLow : ℕ → ℚ → Bool
  /-- The text of the share-diff of a result. -/
  shareDiff : ℕ → String

structure ZanoWorkerJob where
  id : List Char
  height : ℕ
  extraNonce : ℕ
deriving DecidableEq

/-- The texts submitted to the worker jobs. -/
abbrev Registry := List (ℕ × List Char)

namespace ZanoJob

variable (job : ZanoJob)

/-- The extranonce does not come into the header. -/
def encodeBlob (_workerExtraNonce : ℕ) : List UInt8 := job.getBlobId job.blobTemplate

/-- A worker job and the extranonce of the job after it. -/
def prepareWorkerJob (extraNonce : ℕ) : ZanoWorkerJob × ℕ :=
  let (workerExtraNonce, extraNonce) := nextExtraNonce extraNonce
  ({ id := "0x".toList ++ toHexString (job.encodeBlob workerExtraNonce)
     height := job.height
     extraNonce := workerExtraNonce }, extraNonce)

/-- The share of a nonce, with the block if it is a candidate. -/
def hashShare (context : ZanoWorkerContext) (workerExtraNonce fullNonce : ℕ) :
    Except SubmitException (MinedShare × Option (List Char)) :=
  let blobBytes := job.convertBlock job.blobTemplate fullNonce
  match job.compute (job.encodeBlob workerExtraNonce) fullNonce with
  | none => .error (.stratum .minusOne "bad hash")
  | some headerValue =>
      let isBlockCandidate := job.isBlockCandidate headerValue
      match stratumDifficulty context isBlockCandidate (job.isLow headerValue) with
      | none => .error (.stratum .lowDifficultyShare
          s!"low difficulty share ({job.shareDiff headerValue})")
      | some difficulty => .ok
          ({ blockHeight := job.height
             difficulty := difficulty / job.shareMultiplier
             isBlockCandidate
             blockHash := if isBlockCandidate then
               some (String.ofList (toHexString (job.getBlockId blobBytes))) else none },
            if isBlockCandidate then some (toHexString blobBytes) else none)

def processShare (context : ZanoWorkerContext) (nonce : List Char) (workerExtraNonce : ℕ) :
    Except SubmitException (MinedShare × Option (List Char)) :=
  if nonce = [] ∨ workerExtraNonce = 0 then .error .argument
  else if matchesDigits 16 nonce then
    match tryParseHexNumber 64 nonce with
    | none => .error (.stratum .minusOne ("bad nonce " ++ String.ofList nonce))
    | some fullNonce => job.hashShare context workerExtraNonce fullNonce
  else .error (.stratum .minusOne "malformed nonce")

variable {job}

/-- A share has a nonce that the regular expression matches. -/
theorem matchesDigits_of_processShare {context : ZanoWorkerContext} {nonce : List Char}
    {workerExtraNonce : ℕ} {result : MinedShare × Option (List Char)}
    (h : job.processShare context nonce workerExtraNonce = .ok result) :
    matchesDigits 16 nonce := by
  rw [processShare] at h
  split at h
  · cases h
  · split at h
    · assumption
    · cases h

/-- A line feed behind a nonce changes nothing. -/
theorem processShare_lineFeed (context : ZanoWorkerContext) {nonce : List Char}
    (workerExtraNonce : ℕ) (h : matchesDigits 16 nonce) (hend : nonce.getLast? ≠ some '\n') :
    job.processShare context (nonce ++ ['\n']) workerExtraNonce =
      job.processShare context nonce workerExtraNonce := by
  obtain ⟨hlength, hlower⟩ := of_matchesDigits h hend
  have hdigits : ∀ c ∈ nonce, isHexDigit c :=
    fun c hc => isHexDigit_of_isLowerHexDigit (hlower c hc)
  have hempty : nonce ≠ [] := by
    rw [← List.length_pos_iff, hlength]
    decide
  have hbits : 16 ^ nonce.length ≤ 2 ^ 64 := by
    rw [hlength]
    decide
  have hmatches : matchesDigits 16 (nonce ++ ['\n']) :=
    matchesDigits_iff.mpr ⟨nonce, hlength, hlower, Or.inr rfl⟩
  have hparse : tryParseHexNumber 64 nonce = some (hexValue nonce) :=
    tryParseHexNumber_of_isHexDigit hempty hdigits hbits
  have hparse' : tryParseHexNumber 64 (nonce ++ ['\n']) = some (hexValue nonce) := by
    rw [tryParseHexNumber, parseHexNumber_lineFeed hempty hdigits hbits]
    rfl
  rw [processShare, processShare, hparse, hparse', if_pos hmatches, if_pos h]
  simp [hempty]

end ZanoJob

/-- A job with the last extranonce that it has given out. -/
structure PoolState where
  currentJob : Option (ZanoJob × ℕ) := none
  jobs : WorkerJobs ZanoWorkerJob := {}
  contexts : String → ZanoWorkerContext

/-- What happens in a pool. The two versions of the protocol have their parameters in different
places. -/
inductive Event where
  | updateJob (job : ZanoJob)
  | createWorkerJob (connectionId : String)
  | setDifficulty (connectionId : String) (difficulty : WorkerDifficulty)
  | submit (v1 : Bool) (connectionId : String) (requestParams : List (List Char))

namespace PoolState

variable (state : PoolState)

/-- A template is new when its height is above the one of the job and it is on another block. -/
def updateJob (job : ZanoJob) : PoolState :=
  match state.currentJob with
  | none => { state with currentJob := some (job, 0) }
  | some (current, _) =>
      if current.height < job.height ∧ job.prevHash ≠ current.prevHash then
        { state with currentJob := some (job, 0) }
      else state

def createWorkerJob (connectionId : String) : PoolState :=
  match state.currentJob with
  | none => state
  | some (job, extraNonce) =>
      let (workerJob, extraNonce) := job.prepareWorkerJob extraNonce
      { state with
        currentJob := some (job, extraNonce)
        jobs := state.jobs.addJob 4 connectionId workerJob }

/-- What an event makes of the pool, the registries aside. -/
def step : Event → PoolState
  | .updateJob job => state.updateJob job
  | .createWorkerJob connectionId => state.createWorkerJob connectionId
  | .setDifficulty connectionId difficulty =>
      { state with contexts := Function.update state.contexts connectionId difficulty }
  | .submit _ _ _ => state

/-- The worker job and the nonce that a request names. -/
def checkRequest (v1 : Bool) (connectionId : String) (requestParams : List (List Char)) :
    Except SubmitException (ℕ × ZanoWorkerJob × List Char) :=
  match requestParams with
  | first :: jobId :: third :: rest =>
      if first = [] ∨ jobId = [] ∨ third = [] ∨ [] ∈ rest then
        .error (.stratum .minusOne "invalid request")
      else
        match state.jobs.getJob (fun _ job => job.id = jobId) connectionId with
        | none => .error (.stratum .minusOne "invalid jobid")
        | some (reference, workerJob) =>
            if v1 then .ok (reference, workerJob, stripHexPrefix first)
            else if rest.length < 2 then .error .indexOutOfRange
            else .ok (reference, workerJob, stripHexPrefix third)
  | _ => .error (.stratum .minusOne "invalid request")

/-- `SubmitShareAsync` of the manager. -/
def processShare (connectionId : String) (workerJob : ZanoWorkerJob) (nonce : List Char) :
    Except SubmitException (MinedShare × Option (List Char)) :=
  match state.currentJob with
  | none => .error (.stratum .minusOne "block expired")
  | some (job, _) =>
      if workerJob.height ≠ job.height then .error (.stratum .minusOne "block expired")
      else job.processShare (state.contexts connectionId) nonce workerJob.extraNonce

def onSubmit (v1 : Bool) (connectionId : String) (requestParams : List (List Char))
    (registry : Registry) :
    Registry × Except SubmitException (MinedShare × Option (List Char)) :=
  match state.checkRequest v1 connectionId requestParams with
  | .error exception => (registry, .error exception)
  | .ok (reference, workerJob, nonce) =>
      if (reference, ignoringCase nonce) ∈ registry then
        (registry, .error (.stratum .minusOne "duplicate share"))
      else
        ((reference, ignoringCase nonce) :: registry,
          state.processShare connectionId workerJob nonce)

end PoolState

end Miningcore.Zano

/-!
# Nonces credited twice

Every worker job has a registry of its own, and all of them have the header of the
template. A nonce is credited again on any other worker job, and on the same one
with a line feed at its end.
-/

namespace Miningcore.Zano

open Foundation Mining

/-- What a share is the proof of. -/
structure Work where
  header : List UInt8
  nonce : ℕ
deriving DecidableEq

/-- A submission with its worker job, and the job it is checked against. -/
structure Submitted where
  reference : ℕ
  workerJob : ZanoWorkerJob
  job : Option ZanoJob
  nonce : List Char
  /-- The outcome of the submission when it is no duplicate. -/
  share : Except SubmitException (MinedShare × Option (List Char))

namespace Submitted

variable (submitted : Submitted)

/-- What is registered. -/
def key : ℕ × List Char := (submitted.reference, ignoringCase submitted.nonce)

/-- The header that is hashed, unless the worker job has expired. -/
def header : Option (List UInt8) :=
  submitted.job.bind fun job =>
    if submitted.workerJob.height = job.height then
      some (job.encodeBlob submitted.workerJob.extraNonce)
    else none

def work : Option Work :=
  submitted.header.bind fun header =>
    (tryParseHexNumber 64 submitted.nonce).map fun nonce => ⟨header, nonce⟩

/-- The work of a submission that is good enough for a share. -/
def goodWork : Option Work := if submitted.share.toOption.isSome then submitted.work else none

end Submitted

namespace PoolState

/-- The submission of an event, unless it is refused before it is registered. -/
def submitted (state : PoolState) : Event → Option Submitted
  | .submit v1 connectionId requestParams =>
      match state.checkRequest v1 connectionId requestParams with
      | .error _ => none
      | .ok (reference, workerJob, nonce) => some
          { reference, workerJob, job := state.currentJob.map Prod.fst, nonce
            share := state.processShare connectionId workerJob nonce }
  | _ => none

/-- An event with the registry, and the work of its share if there is one. -/
def process (state : PoolState) (event : Event) (registry : Registry) :
    Registry × Option Work :=
  match event with
  | .submit v1 connectionId requestParams =>
      match state.onSubmit v1 connectionId requestParams registry with
      | (registry, .ok _) => (registry, (state.submitted event).bind Submitted.work)
      | (registry, .error _) => (registry, none)
  | _ => (registry, none)

/-- The work of the accepted shares, in the order of the submissions. -/
def acceptedWork (state : PoolState) (events : List Event) : List Work :=
  acceptedAlong step process state events []

end PoolState

/-- The submissions of a run in the states they meet. -/
def submissions (events : List Event) (state : PoolState) : List Submitted :=
  submittedAlong PoolState.submitted PoolState.step state events

theorem registers_process :
    Registers PoolState.submitted Submitted.key Submitted.goodWork PoolState.process := by
  apply Registers.of_process_eq
  intro state event registry
  cases event with
  | submit v1 connectionId requestParams =>
      rw [PoolState.process, PoolState.onSubmit, PoolState.submitted]
      cases state.checkRequest v1 connectionId requestParams with
      | error exception => rfl
      | ok checked =>
          obtain ⟨reference, workerJob, nonce⟩ := checked
          by_cases hmem : (reference, ignoringCase nonce) ∈ registry
          · simp [Submitted.key, hmem]
          · simp only [Submitted.key, hmem, if_false]
            cases hshare : state.processShare connectionId workerJob nonce with
            | error exception => simp [Submitted.goodWork, Except.toOption]
            | ok share => simp [Submitted.goodWork, Except.toOption]
  | updateJob job => rfl
  | createWorkerJob connectionId => rfl
  | setDifficulty connectionId difficulty => rfl

theorem acceptedWork_eq_creditedValues (state : PoolState) (events : List Event) :
    state.acceptedWork events =
      creditedValues (fun submitted => some submitted.key) Submitted.goodWork
        (submissions events state) [] :=
  acceptedAlong_eq_creditedValues registers_process state events []

theorem goodWork_eq_some_iff {submitted : Submitted} {work : Work} :
    submitted.goodWork = some work ↔
      submitted.share.toOption.isSome ∧ submitted.work = some work := by
  rw [Submitted.goodWork, Option.ite_none_right_eq_some]

/-- A share has a nonce that the regular expression matches. -/
theorem matchesDigits_of_share {events : List Event} {state : PoolState} {submitted : Submitted}
    (hmem : submitted ∈ submissions events state) (hshare : submitted.share.toOption.isSome) :
    matchesDigits 16 submitted.nonce := by
  obtain ⟨⟨met, event⟩, -, hsubmitted⟩ := List.mem_filterMap.mp hmem
  cases event with
  | submit v1 connectionId requestParams =>
      rw [PoolState.submitted] at hsubmitted
      split at hsubmitted
      · cases hsubmitted
      · rename_i reference workerJob nonce hcheck
        cases hsubmitted
        obtain ⟨result, hresult⟩ := Option.isSome_iff_exists.mp hshare
        cases hprocess : met.processShare connectionId workerJob nonce with
        | error exception => simp [hprocess, Except.toOption] at hresult
        | ok share =>
            rw [PoolState.processShare] at hprocess
            split at hprocess
            · cases hprocess
            · split at hprocess
              · cases hprocess
              · exact ZanoJob.matchesDigits_of_processShare hprocess
  | updateJob job => cases hsubmitted
  | createWorkerJob connectionId => cases hsubmitted
  | setDifficulty connectionId difficulty => cases hsubmitted

/-- A nonce for one header comes to one worker job only. -/
def HasOwnNonces (submissions : List Submitted) : Prop :=
  ∀ first ∈ submissions, ∀ second ∈ submissions, first.header.isSome →
    first.header = second.header → ignoringCase first.nonce = ignoringCase second.nonce →
      first.reference = second.reference

/-- No work is credited twice in a run whose nonces have no line feed and come to one worker job
each. -/
theorem nodup_acceptedWork_of_ownNonces (events : List Event) (state : PoolState)
    (hend : ∀ submitted ∈ submissions events state, submitted.nonce.getLast? ≠ some '\n')
    (hown : HasOwnNonces (submissions events state)) :
    (state.acceptedWork events).Nodup := by
  rw [acceptedWork_eq_creditedValues]
  apply nodup_creditedValues
  intro first hfirst second hsecond key key' work hkey hkey' hgood hgood'
  obtain ⟨hshare, hwork⟩ := goodWork_eq_some_iff.mp hgood
  obtain ⟨hshare', hwork'⟩ := goodWork_eq_some_iff.mp hgood'
  obtain ⟨header, hheader, hnonce⟩ := Option.bind_eq_some_iff.mp hwork
  obtain ⟨header', hheader', hnonce'⟩ := Option.bind_eq_some_iff.mp hwork'
  obtain ⟨n, hparse, rfl⟩ := Option.map_eq_some_iff.mp hnonce
  obtain ⟨n', hparse', hsame⟩ := Option.map_eq_some_iff.mp hnonce'
  rw [Work.mk.injEq] at hsame
  have htext : ignoringCase first.nonce = ignoringCase second.nonce := by
    obtain ⟨hlength, hlower⟩ :=
      of_matchesDigits (matchesDigits_of_share hfirst hshare) (hend first hfirst)
    obtain ⟨hlength', hlower'⟩ :=
      of_matchesDigits (matchesDigits_of_share hsecond hshare') (hend second hsecond)
    have hdigits (c : Char) (hc : c ∈ first.nonce) : isHexDigit c :=
      isHexDigit_of_isLowerHexDigit (hlower c hc)
    have hdigits' (c : Char) (hc : c ∈ second.nonce) : isHexDigit c :=
      isHexDigit_of_isLowerHexDigit (hlower' c hc)
    rw [tryParseHexNumber_of_length hlength hdigits, Option.some.injEq] at hparse
    rw [tryParseHexNumber_of_length hlength' hdigits', Option.some.injEq] at hparse'
    apply ignoringCase_eq_of_hexValue_eq hdigits hdigits' (hlength.trans hlength'.symm)
    rw [hparse, hparse', hsame.2]
  have hreference := hown first hfirst second hsecond (Option.isSome_of_eq_some hheader)
    (by rw [hheader, hheader', hsame.1]) htext
  rw [Option.some.injEq] at hkey hkey'
  rw [← hkey, ← hkey', Submitted.key, Submitted.key, hreference, htext]

section pairs

variable {state : PoolState} {first second : Submitted} {firstEvent secondEvent : Event}
  {work : Work}

/-- Good work is credited again under any other key. -/
theorem acceptedWork_pair (hfirst : state.submitted firstEvent = some first)
    (hsecond : (state.step firstEvent).submitted secondEvent = some second)
    (hkey : second.key ≠ first.key) (hgood : first.goodWork = some work)
    (hgood' : second.goodWork = some work) :
    state.acceptedWork [firstEvent, secondEvent] = [work, work] :=
  acceptedAlong_pair registers_process hfirst hsecond hkey hgood hgood'

/-- A good nonce is credited again on any other worker job of the template. -/
theorem acceptedWork_other_workerJob {reference : ℕ} {workerJob : ZanoWorkerJob}
    (hfirst : state.submitted firstEvent = some first)
    (hsecond : (state.step firstEvent).submitted secondEvent =
      some { first with reference, workerJob })
    (hreference : reference ≠ first.reference)
    (hheight : workerJob.height = first.workerJob.height) (hgood : first.goodWork = some work) :
    state.acceptedWork [firstEvent, secondEvent] = [work, work] := by
  have hgood' : Submitted.goodWork { first with reference, workerJob } = some work := by
    rw [← hgood, Submitted.goodWork, Submitted.goodWork, Submitted.work, Submitted.work,
      Submitted.header, Submitted.header, hheight]
    rfl
  exact acceptedWork_pair hfirst hsecond (fun hkey => hreference (Prod.ext_iff.mp hkey).1) hgood
    hgood'

end pairs

namespace SharedHeader

/-- A job that takes every nonce for a share. -/
def easyJob : ZanoJob where
  blobTemplate := []
  height := 1
  prevHash := []
  shareMultiplier := 1
  getBlobId _ := [0xab]
  convertBlock blob _ := blob
  getBlockId := id
  compute _ _ := some 1
  isBlockCandidate _ := false
  isLow _ _ := false
  shareDiff _ := ""

def pool : PoolState := { contexts := fun _ => { difficulty := 1 } }

/-- Two connections with a worker job each. -/
def twoWorkers : List Event :=
  [.updateJob easyJob, .createWorkerJob "A", .createWorkerJob "B"]

def submit (connectionId nonce : String) : Event :=
  .submit true connectionId [nonce.toList, "0xab".toList, "0x00".toList]

end SharedHeader

open SharedHeader in
/-- One nonce from two connections. -/
theorem not_nodup_twoWorkers : ¬ (pool.acceptedWork
    (twoWorkers ++ [submit "A" "0x0000000000000001", submit "B" "0x0000000000000001"])).Nodup := by
  decide +kernel

open SharedHeader in
theorem nodup_acceptedWork_twoWorkers : (pool.acceptedWork
    (twoWorkers ++ [submit "A" "0x000000000000000a", submit "A" "000000000000000a",
      submit "B" "0x000000000000000b"])).Nodup := by
  apply nodup_acceptedWork_of_ownNonces
  · decide +kernel
  · unfold HasOwnNonces
    decide +kernel

end Miningcore.Zano
