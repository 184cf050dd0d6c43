import Miningcore.Blockchain.Progpow.ProgpowJob
import Miningcore.Foundation.Registry

/-!
# Nonces credited twice

Every worker job has a registry of its own, and the header depends on the job and
the extranonce only. A nonce is credited again on another worker job of the same
job, and on the same one in another spelling.
-/

namespace Miningcore.Progpow

open Foundation Mining

/-- What a share is the proof of. -/
structure Work where
  blockTemplate : BlockTemplate
  headerHash : List Char
  nonce : ℕ
deriving DecidableEq

/-- A submission that passes the checks, with its worker job. -/
structure Submitted where
  reference : ℕ
  workerJob : ProgpowWorkerJob
  context : ProgpowWorkerContext
  nonce : List Char
  headerHash : Option (List Char)
  mixHash : List Char

namespace Submitted

variable (submitted : Submitted)

/-- What is registered. -/
def key : ℕ × List Char :=
  (submitted.reference,
    ignoringCase (submitted.nonce ++ submitted.headerHash.getD [] ++ submitted.mixHash))

def work : Option Work :=
  match submitted.workerJob.job, submitted.headerHash, parseHexNumber 64 submitted.nonce with
  | some job, some headerHash, .ok nonce => some ⟨job.blockTemplate, headerHash, nonce⟩
  | _, _, _ => none

def share : Except SubmitException (MinedShare × Option (List Char)) :=
  submitted.workerJob.hashShare submitted.context submitted.nonce submitted.headerHash
    submitted.mixHash

/-- The work of a submission that is good enough for a share. -/
def goodWork : Option Work := if submitted.share.toOption.isSome then submitted.work else none

end Submitted

namespace PoolState

/-- The submission of an event, unless it is refused before it is registered. -/
def submitted (state : PoolState) : Event → Option Submitted
  | .submit connectionId submitParams =>
      match extractParams submitParams with
      | .error _ => none
      | .ok params =>
          match state.jobs.getJob (hasId params.jobId) connectionId with
          | none => none
          | some (reference, workerJob) =>
              match ProgpowWorkerJob.checkSubmission (state.contexts connectionId) params.nonce
                  params.mixHash with
              | .error _ => none
              | .ok (nonce, mixHash) => some
                  { reference, workerJob, context := state.contexts connectionId, nonce
                    headerHash := params.headerHash, mixHash }
  | _ => none

/-- An event with the registry, and the work of its share if there is one. -/
def process (state : PoolState) (event : Event) (registry : Registry) :
    Registry × Option Work :=
  match event with
  | .submit connectionId submitParams =>
      match state.submitShare connectionId submitParams registry with
      | (registry, .ok _) => (registry, (state.submitted event).bind Submitted.work)
      | (registry, .error _) => (registry, none)
  | _ => (registry, none)

/-- The work of the accepted shares, in the order of the submissions. -/
def acceptedWork (maxActiveJobs : ℕ) (state : PoolState) (events : List Event) : List Work :=
  acceptedAlong (fun state event => state.step maxActiveJobs event) process state events []

end PoolState

/-- The submissions of a run that pass the checks in the states they meet. -/
def submissions (maxActiveJobs : ℕ) (events : List Event) (state : PoolState) : List Submitted :=
  submittedAlong PoolState.submitted (fun state event => state.step maxActiveJobs event) state
    events

variable {maxActiveJobs : ℕ}

/-- A submission is processed as what it submits. -/
theorem submitShare_of_submitted {state : PoolState} {connectionId : String}
    {submitParams : List (Option (List Char))} {submitted : Submitted}
    (h : state.submitted (.submit connectionId submitParams) = some submitted)
    (registry : Registry) :
    state.submitShare connectionId submitParams registry =
      if submitted.key ∈ registry then
        (registry, .error (.stratum .duplicateShare "duplicate share"))
      else (submitted.key :: registry, submitted.share) := by
  rw [PoolState.submitted] at h
  split at h
  · cases h
  · rename_i params hparams
    split at h
    · cases h
    · rename_i reference workerJob hjob
      split at h
      · cases h
      · rename_i nonce mixHash hcheck
        cases h
        simp only [PoolState.submitShare, hparams, hjob, ProgpowWorkerJob.processShare, hcheck,
          registerSubmit]
        split
        · rename_i hmem
          split at hmem
          · rename_i hin
            exact (if_pos hin).symm
          · cases hmem
        · rename_i registered hmem
          split at hmem
          · cases hmem
          · rename_i hnotin
            cases hmem
            exact (if_neg hnotin).symm

/-- What submits nothing is refused and not registered. -/
theorem submitShare_of_submitted_none {state : PoolState} {connectionId : String}
    {submitParams : List (Option (List Char))}
    (h : state.submitted (.submit connectionId submitParams) = none) (registry : Registry) :
    ∃ exception, state.submitShare connectionId submitParams registry =
      (registry, .error exception) := by
  rw [PoolState.submitted] at h
  split at h
  · rename_i exception hparams
    exact ⟨exception, by simp only [PoolState.submitShare, hparams]⟩
  · rename_i params hparams
    split at h
    · rename_i hjob
      refine ⟨.stratum .minusOne "invalid jobid", ?_⟩
      simp only [PoolState.submitShare, hparams, hjob]
    · rename_i reference workerJob hjob
      split at h
      · rename_i exception hcheck
        exact ⟨exception, by
          simp only [PoolState.submitShare, hparams, hjob, ProgpowWorkerJob.processShare, hcheck]⟩
      · cases h

theorem registers_process :
    Registers PoolState.submitted Submitted.key Submitted.goodWork PoolState.process := by
  apply Registers.of_process_eq
  intro state event registry
  cases event with
  | submit connectionId submitParams =>
      cases hsubmitted : state.submitted (.submit connectionId submitParams) with
      | none =>
          obtain ⟨exception, hrefused⟩ := submitShare_of_submitted_none hsubmitted registry
          rw [PoolState.process, hrefused]
      | some submitted =>
          rw [PoolState.process, submitShare_of_submitted hsubmitted, hsubmitted]
          by_cases hmem : submitted.key ∈ registry
          · simp only [hmem, if_true]
          · simp only [hmem, if_false]
            cases hshare : submitted.share with
            | error exception => simp [Submitted.goodWork, hshare, Except.toOption]
            | ok share => simp [Submitted.goodWork, hshare, Except.toOption]
  | updateJob job => rfl
  | subscribe connectionId => rfl
  | createWorkerJob connectionId => rfl
  | setDifficulty connectionId difficulty => rfl

theorem acceptedWork_eq_creditedValues (state : PoolState) (events : List Event) :
    state.acceptedWork maxActiveJobs events =
      creditedValues (fun submitted => some submitted.key) Submitted.goodWork
        (submissions maxActiveJobs events state) [] :=
  acceptedAlong_eq_creditedValues registers_process state events []

/-- The part of a pool that only grows. -/
theorem created_prefix_step (state : PoolState) (event : Event) :
    state.jobs.created <+: (state.step maxActiveJobs event).jobs.created := by
  cases event with
  | createWorkerJob connectionId => exact WorkerJobs.created_prefix_addJob _ _ _
  | updateJob job => exact List.prefix_rfl
  | subscribe connectionId => exact List.prefix_rfl
  | setDifficulty connectionId difficulty => exact List.prefix_rfl
  | submit connectionId submitParams => exact List.prefix_rfl

/-- What a submission that passes the checks looks like. -/
theorem of_submitted {state : PoolState} {event : Event} {submitted : Submitted}
    (h : state.submitted event = some submitted) :
    state.jobs.created[submitted.reference]? = some submitted.workerJob ∧
      submitted.nonce.length = 16 ∧
      (ignoringCase (submitted.context.extraNonce1.take 4)).isPrefixOf
        (ignoringCase submitted.nonce) := by
  cases event with
  | submit connectionId submitParams =>
      rw [PoolState.submitted] at h
      split at h
      · cases h
      · split at h
        · cases h
        · rename_i reference workerJob hjob
          split at h
          · cases h
          · rename_i nonce mixHash hcheck
            cases h
            exact ⟨(WorkerJobs.of_getJob hjob).1, ProgpowWorkerJob.of_checkSubmission hcheck⟩
  | updateJob job => cases h
  | subscribe connectionId => cases h
  | createWorkerJob connectionId => cases h
  | setDifficulty connectionId difficulty => cases h

theorem length_nonce {events : List Event} {state : PoolState} {submitted : Submitted}
    (h : submitted ∈ submissions maxActiveJobs events state) : submitted.nonce.length = 16 := by
  obtain ⟨p, -, hsubmitted⟩ := List.mem_filterMap.mp h
  exact (of_submitted hsubmitted).2.1

/-- One reference is one worker job in the whole run. -/
theorem workerJob_unique {events : List Event} {state : PoolState} {first second : Submitted}
    (hfirst : first ∈ submissions maxActiveJobs events state)
    (hsecond : second ∈ submissions maxActiveJobs events state)
    (h : first.reference = second.reference) : first.workerJob = second.workerJob := by
  obtain ⟨p, hp, hsubmitted⟩ := List.mem_filterMap.mp hfirst
  obtain ⟨q, hq, hsubmitted'⟩ := List.mem_filterMap.mp hsecond
  have hgrows (state : PoolState) (event : Event) :
      state.jobs.created <+: (state.step maxActiveJobs event).jobs.created :=
    created_prefix_step state event
  have hcomparable := met_comparable
    (R := fun before after : PoolState => before.jobs.created <+: after.jobs.created)
    (fun _ => List.prefix_rfl) (fun _ _ _ => List.IsPrefix.trans) hgrows state events p hp q hq
  obtain ⟨hcreated, -⟩ := of_submitted hsubmitted
  obtain ⟨hcreated', -⟩ := of_submitted hsubmitted'
  rw [h] at hcreated
  exact WorkerJobs.job_unique hcomparable hcreated hcreated'

theorem goodWork_eq_some_iff {submitted : Submitted} {work : Work} :
    submitted.goodWork = some work ↔
      submitted.share.toOption.isSome ∧ submitted.work = some work := by
  rw [Submitted.goodWork, Option.ite_none_right_eq_some]

/-- What a credited submission looks like. -/
theorem of_goodWork {submitted : Submitted} {work : Work}
    (h : submitted.goodWork = some work) :
    parseHexNumber 64 submitted.nonce = .ok work.nonce ∧
      submitted.headerHash = some work.headerHash ∧
        ∃ job, submitted.workerJob.job = some job ∧ job.blockTemplate = work.blockTemplate ∧
          ∃ headerHash computed, toHexString headerHash = work.headerHash ∧
            job.compute headerHash work.nonce = some computed ∧
              submitted.mixHash = toHexString computed.1 := by
  obtain ⟨hshare, hwork⟩ := goodWork_eq_some_iff.mp h
  rw [Submitted.work] at hwork
  split at hwork
  · rename_i job headerHash nonce hjob hheader hnonce
    cases hwork
    rw [Submitted.share, ProgpowWorkerJob.hashShare, hnonce, hjob, hheader] at hshare
    obtain ⟨result, hresult⟩ := Option.isSome_iff_exists.mp hshare
    cases hprocess : job.processShareInternal submitted.context nonce headerHash
        submitted.mixHash with
    | error exception => simp [hprocess, Except.toOption] at hresult
    | ok share =>
        obtain ⟨hhash, computed, hcompute, hmix⟩ := ProgpowJob.of_processShareWith hprocess
        exact ⟨hnonce, hheader, job, hjob, rfl, _, computed, hhash, hcompute, hmix⟩
  · cases hwork

/-- The template of the job that a worker job was made of. -/
def Submitted.blockTemplate (submitted : Submitted) : Option BlockTemplate :=
  submitted.workerJob.job.map ProgpowJob.blockTemplate

/-- A nonce for one header comes to one worker job only. -/
def HasOwnNonces (submissions : List Submitted) : Prop :=
  ∀ first ∈ submissions, ∀ second ∈ submissions,
    first.blockTemplate = second.blockTemplate → first.headerHash = second.headerHash →
      ignoringCase first.nonce = ignoringCase second.nonce → first.reference = second.reference

/-- No work is credited twice in a run whose nonces have no white space or null characters and come
to one worker job each. -/
theorem nodup_acceptedWork_of_plainTexts (maxActiveJobs : ℕ) (events : List Event)
    (state : PoolState)
    (hplain : ∀ submitted ∈ submissions maxActiveJobs events state,
      ∀ c ∈ submitted.nonce, ¬ isWhite c ∧ c.toNat ≠ 0)
    (hown : HasOwnNonces (submissions maxActiveJobs events state)) :
    (state.acceptedWork maxActiveJobs events).Nodup := by
  rw [acceptedWork_eq_creditedValues]
  apply nodup_creditedValues
  intro first hfirst second hsecond key key' work hkey hkey' hgood hgood'
  obtain ⟨hnonce, hheader, job, hjob, htemplate, headerHash, computed, hhash, hcompute, hmix⟩ :=
    of_goodWork hgood
  obtain ⟨hnonce', hheader', job', hjob', htemplate', headerHash', computed', hhash', hcompute',
    hmix'⟩ := of_goodWork hgood'
  have hlength := length_nonce hfirst
  have hlength' := length_nonce hsecond
  have hdigits := isHexDigit_of_parseHexNumber hnonce (hplain first hfirst)
  have hdigits' := isHexDigit_of_parseHexNumber hnonce' (hplain second hsecond)
  rw [parseHexNumber_of_length hlength hdigits, Except.ok.injEq] at hnonce
  rw [parseHexNumber_of_length hlength' hdigits', Except.ok.injEq] at hnonce'
  have htext : ignoringCase first.nonce = ignoringCase second.nonce :=
    ignoringCase_eq_of_hexValue_eq hdigits hdigits' (hlength.trans hlength'.symm)
      (hnonce.trans hnonce'.symm)
  have hreference : first.reference = second.reference := by
    apply hown first hfirst second hsecond _ (hheader.trans hheader'.symm) htext
    rw [Submitted.blockTemplate, Submitted.blockTemplate, hjob, hjob', Option.map_some,
      Option.map_some, htemplate, htemplate']
  -- The worker job of the reference has the one job that computes the mix hash.
  have hsame : job = job' := by
    rw [workerJob_unique hfirst hsecond hreference, hjob'] at hjob
    exact (Option.some.inj hjob).symm
  rw [hsame, toHexString_injective (hhash.trans hhash'.symm), hcompute', Option.some.injEq]
    at hcompute
  rw [Option.some.injEq] at hkey hkey'
  rw [← hkey, ← hkey', Submitted.key, Submitted.key, hreference, hheader, hheader', hmix, hmix',
    hcompute]
  simp only [ignoringCase_append, htext]

section pairs

variable {state : PoolState} {firstId secondId : String}
  {firstParams secondParams : List (Option (List Char))} {first second : Submitted} {work : Work}

/-- Good work is credited again under any other key. -/
theorem acceptedWork_pair
    (hfirst : state.submitted (.submit firstId firstParams) = some first)
    (hsecond : state.submitted (.submit secondId secondParams) = some second)
    (hkey : second.key ≠ first.key) (hgood : first.goodWork = some work)
    (hgood' : second.goodWork = some work) :
    state.acceptedWork maxActiveJobs
      [.submit firstId firstParams, .submit secondId secondParams] = [work, work] :=
  acceptedAlong_pair registers_process hfirst hsecond hkey hgood hgood'

/-- A good nonce is credited again on another worker job of the same job. -/
theorem acceptedWork_other_workerJob {reference : ℕ} {workerJob : ProgpowWorkerJob}
    (hfirst : state.submitted (.submit firstId firstParams) = some first)
    (hsecond : state.submitted (.submit secondId secondParams) =
      some { first with reference, workerJob })
    (hjob : workerJob.job = first.workerJob.job) (hreference : reference ≠ first.reference)
    (hgood : first.goodWork = some work) :
    state.acceptedWork maxActiveJobs
      [.submit firstId firstParams, .submit secondId secondParams] = [work, work] := by
  apply acceptedWork_pair hfirst hsecond (fun hkey => hreference (Prod.ext_iff.mp hkey).1) hgood
  rw [Submitted.goodWork, Submitted.share, Submitted.work, ProgpowWorkerJob.hashShare, hjob]
  exact hgood

end pairs

namespace Reissued

/-- A job that takes every nonce for a share. -/
def easyJob : ProgpowJob where
  blockTemplate := ⟨1, 0x20000000, 0, [], [], []⟩
  coinbaseInitial := []
  coinbaseFinal := []
  merkleSteps := []
  networkDifficulty := 1
  shareMultiplier := 1
  blockTargetValue := 0
  coinbaseHasher := id
  doubleDigest := id
  headerHasher _ := [0xab]
  blockHasher := id
  compute _ _ := some (List.replicate 32 0, [1])
  isLow _ _ := false
  shareDiff _ := ""

def pool : PoolState where
  provider := .initial 2 1
  contexts _ := { difficulty := 1, extraNonce1 := [] }

def submit (jobId nonce : String) : Event :=
  .submit "A" [some "worker".toList, some jobId.toList, some ("0x" ++ nonce).toList,
    some "0xab".toList, some ("0x".toList ++ List.replicate 64 '0')]

/-- A subscription, and the worker job of a change of difficulty. -/
def retargeted : List Event :=
  [.updateJob easyJob, .subscribe "A", .createWorkerJob "A",
    .setDifficulty "A"
      { difficulty := 2, varDiffLastUpdate := some 1, previousDifficulty := some 1 },
    .createWorkerJob "A"]

end Reissued

open Reissued in
/-- One nonce for the two worker jobs of a connection. -/
theorem not_nodup_retargeted : ¬ (pool.acceptedWork 4
    (retargeted ++ [submit "1" "1001000000000001", submit "2" "1001000000000001"])).Nodup := by
  decide +kernel

open Reissued in
theorem nodup_acceptedWork_retargeted : (pool.acceptedWork 4
    (retargeted ++ [submit "1" "100100000000000A", submit "1" "100100000000000a",
      submit "2" "100100000000000b"])).Nodup := by
  apply nodup_acceptedWork_of_plainTexts
  · have hplain : (submissions 4 (retargeted ++ [submit "1" "100100000000000A",
        submit "1" "100100000000000a", submit "2" "100100000000000b"]) pool).all
          fun submitted => submitted.nonce.all fun c => !isWhite c && decide (c.toNat ≠ 0) := by
      decide +kernel
    simpa using hplain
  · unfold HasOwnNonces
    decide +kernel

end Miningcore.Progpow
