import Miningcore.Blockchain.Cryptonote.CryptonotePool
import Miningcore.Foundation.Registry

/-!
# Shares of one nonce and of another template

Every worker job has a registry of its own, and an extranonce that no other one of its
job has. A share is checked against the job that is current, whose height is the only
thing that is compared.
-/

namespace Miningcore.Cryptonote

open Foundation Mining

/-- What a share is the proof of. -/
structure Work where
  blockTemplate : BlockTemplate
  extraNonce : ℕ
  nonce : List UInt8
deriving DecidableEq

/-- An accepted share: the numbers of the job that it was checked against and of the one that its
worker job was prepared from, and its work. -/
structure Credit where
  job : ℕ
  preparedFrom : ℕ
  work : Work
deriving DecidableEq

/-- The work of a share, with the number of the job for its template. -/
def Credit.slot (credit : Credit) : ℕ × ℕ × List UInt8 :=
  (credit.job, credit.work.extraNonce, credit.work.nonce)

/-- A submission with its worker job, and the job it is checked against. -/
structure Submitted where
  reference : ℕ
  workerJob : PreparedJob
  job : Option (ℕ × CryptonoteJob)
  nonce : List Char
  /-- The outcome of the submission when it is no duplicate. -/
  share : Except SubmitException MinedShare

namespace Submitted

variable (submitted : Submitted)

/-- What is registered. -/
def key : ℕ × List Char := (submitted.reference, ignoringCase submitted.nonce)

/-- What a submission that is good enough for a share is credited as. -/
def credit : Option Credit :=
  if submitted.share.toOption.isSome then
    submitted.job.map fun (number, job) =>
      { job := number
        preparedFrom := submitted.workerJob.preparedFrom
        work :=
          { blockTemplate := job.blockTemplate
            extraNonce := submitted.workerJob.extraNonce
            nonce := hexToByteArray submitted.nonce } }
  else none

/-- A worker job of the height of the current job was prepared from it. -/
def ComesFromCurrent : Prop :=
  ∀ current ∈ submitted.job, submitted.workerJob.height = current.2.blockTemplate.height →
    submitted.workerJob.preparedFrom = current.1

instance : DecidablePred ComesFromCurrent := fun submitted =>
  inferInstanceAs (Decidable (∀ current ∈ submitted.job,
    submitted.workerJob.height = current.2.blockTemplate.height →
      submitted.workerJob.preparedFrom = current.1))

end Submitted

namespace PoolState

variable (pool : CryptonotePool) (state : PoolState)

/-- The submission of an event, unless it is refused before it is registered. -/
def submitted : Event → Option Submitted
  | .submit connectionId request accepted =>
      match state.checkRequest connectionId request with
      | .error _ => none
      | .ok (reference, workerJob, nonce) => some
          { reference, workerJob, nonce
            job := state.currentJob.map fun job => (state.jobs.length - 1, job)
            share := state.submitShare pool connectionId workerJob.toCryptonoteWorkerJob nonce
              request.hash accepted }
  | _ => none

/-- An event with the registry, and the credit of its share if there is one. -/
def process (state : PoolState) (event : Event) (registry : Registry) :
    Registry × Option Credit :=
  match event with
  | .submit connectionId request accepted =>
      match state.onSubmit pool connectionId request accepted registry with
      | (registry, .ok _) => (registry, (state.submitted pool event).bind Submitted.credit)
      | (registry, .error _) => (registry, none)
  | _ => (registry, none)

/-- The credits of the accepted shares, in the order of the submissions. -/
def credits (events : List Event) : List Credit :=
  acceptedAlong (step pool) (process pool) state events []

end PoolState

/-- The submissions of a run in the states they meet. -/
def submissions (pool : CryptonotePool) (events : List Event) (state : PoolState) :
    List Submitted :=
  submittedAlong (PoolState.submitted pool) (PoolState.step pool) state events

/-- The pool after a run from the start. -/
def finalState (pool : CryptonotePool) (contexts : String → WorkerDifficulty)
    (events : List Event) : PoolState :=
  events.foldl (PoolState.step pool) { contexts }

variable {pool : CryptonotePool}

theorem registers_process : Registers (PoolState.submitted pool) Submitted.key Submitted.credit
    (PoolState.process pool) := by
  apply Registers.of_process_eq
  intro state event registry
  cases event with
  | submit connectionId request accepted =>
      rw [PoolState.process, PoolState.onSubmit, PoolState.submitted]
      cases state.checkRequest connectionId request with
      | error exception => rfl
      | ok checked =>
          obtain ⟨reference, workerJob, nonce⟩ := checked
          by_cases hmem : (reference, ignoringCase nonce) ∈ registry
          · simp [Submitted.key, hmem]
          · simp only [Submitted.key, hmem, if_false]
            cases hshare : state.submitShare pool connectionId workerJob.toCryptonoteWorkerJob nonce
                request.hash accepted with
            | error exception => simp [Submitted.credit, Except.toOption]
            | ok share => simp [Submitted.credit, Except.toOption]
  | updateJob blockTemplate => rfl
  | createWorkerJob connectionId => rfl
  | setDifficulty connectionId difficulty => rfl

theorem credits_eq_creditedValues (state : PoolState) (events : List Event) :
    state.credits pool events =
      creditedValues (fun submitted => some submitted.key) Submitted.credit
        (submissions pool events state) [] :=
  acceptedAlong_eq_creditedValues registers_process state events []

/-- A share is checked against a job of the height of its worker job, with a nonce that the regular
expression matches. -/
theorem PoolState.of_submitShare {state : PoolState} {connectionId : String}
    {workerJob : CryptonoteWorkerJob} {nonce hash : List Char} {accepted : Bool}
    (h : (state.submitShare pool connectionId workerJob nonce hash accepted).toOption.isSome) :
    ∃ job, state.currentJob = some job ∧ workerJob.height = job.blockTemplate.height ∧
      matchesDigits 8 nonce := by
  rw [submitShare] at h
  split at h
  · cases h
  · rename_i job hcurrent
    refine ⟨job, hcurrent, ?_⟩
    split at h
    · cases h
    · rename_i hheight
      split at h
      · cases h
      · rename_i share blobHex hprocess
        exact ⟨not_not.mp hheight, CryptonotePool.matchesDigits_of_processShare hprocess⟩

/-- What a credited submission is. -/
structure Submitted.IsCredited (final : PoolState) (submitted : Submitted) (credit : Credit) :
    Prop where
  job : ∃ job, submitted.job = some (credit.job, job) ∧ final.jobs[credit.job]? = some job ∧
    job.blockTemplate = credit.work.blockTemplate ∧
    submitted.workerJob.height = job.blockTemplate.height
  preparedFrom : submitted.workerJob.preparedFrom = credit.preparedFrom
  extraNonce : submitted.workerJob.extraNonce = credit.work.extraNonce
  nonce : hexToByteArray submitted.nonce = credit.work.nonce
  digits : matchesDigits 8 submitted.nonce
  workerJob : final.workerJobs.created[submitted.reference]? = some submitted.workerJob

/-- What is credited along a run, seen from its end. -/
theorem isCredited_of_mem_submissions {contexts : String → WorkerDifficulty} {events : List Event}
    {submitted : Submitted} (hmem : submitted ∈ submissions pool events { contexts })
    {credit : Credit} (hcredit : submitted.credit = some credit) :
    submitted.IsCredited (finalState pool contexts events) credit := by
  obtain ⟨⟨state, event⟩, hmet, hsubmitted⟩ := List.mem_filterMap.mp hmem
  have hextends : state.Extends (finalState pool contexts events) :=
    met_final PoolState.extends_refl (fun _ _ _ => PoolState.Extends.trans)
      (fun _ event => PoolState.extends_step event) _ events _ hmet
  cases event with
  | submit connectionId request accepted =>
      rw [PoolState.submitted] at hsubmitted
      split at hsubmitted
      · cases hsubmitted
      · rename_i reference workerJob nonce hcheck
        cases hsubmitted
        rw [Submitted.credit] at hcredit
        split at hcredit
        · rename_i hshare
          obtain ⟨job, hcurrent, hheight, hdigits⟩ := PoolState.of_submitShare hshare
          rw [hcurrent, Option.map_some, Option.map_some, Option.some.injEq] at hcredit
          subst hcredit
          have hlast : state.jobs[state.jobs.length - 1]? = some job := by
            rwa [PoolState.currentJob, List.getLast?_eq_getElem?] at hcurrent
          have hworkerJob : state.workerJobs.created[reference]? = some workerJob := by
            rw [PoolState.checkRequest] at hcheck
            split at hcheck
            · cases hcheck
            · split at hcheck
              · cases hcheck
              · rename_i hget
                split at hcheck
                · cases hcheck
                · cases hcheck
                  exact (WorkerJobs.of_getJob hget).1
          exact {
            job := ⟨job, by rw [hcurrent, Option.map_some],
              getElem?_of_isPrefix hextends.1 hlast, rfl, hheight⟩
            preparedFrom := rfl
            extraNonce := rfl
            nonce := rfl
            digits := hdigits
            workerJob := getElem?_of_isPrefix hextends.2 hworkerJob }
        · cases hcredit
  | updateJob blockTemplate => cases hsubmitted
  | createWorkerJob connectionId => cases hsubmitted
  | setDifficulty connectionId difficulty => cases hsubmitted

theorem isNumbered_finalState (contexts : String → WorkerDifficulty) (events : List Event) :
    (finalState pool contexts events).IsNumbered := by
  have hrun (state : PoolState) (h : state.IsNumbered) :
      (events.foldl (PoolState.step pool) state).IsNumbered := by
    induction events generalizing state with
    | nil => exact h
    | cons event rest ih => exact ih _ (h.step event)
  exact hrun _ (PoolState.isNumbered_start contexts)

/-- Nonces of digits alone are told apart by their bytes up to the case. -/
theorem ignoringCase_eq_of_hexToByteArray_eq {s t : List Char} (hs : matchesDigits 8 s)
    (ht : matchesDigits 8 t) (hsend : s.getLast? ≠ some '\n') (htend : t.getLast? ≠ some '\n')
    (h : hexToByteArray s = hexToByteArray t) : ignoringCase s = ignoringCase t := by
  have hpairs {u : List Char} (hu : matchesDigits 8 u) (hend : u.getLast? ≠ some '\n') :
      IsHexPairs u := by
    obtain ⟨hlength, hlower⟩ := of_matchesDigits hu hend
    refine ⟨?_, fun c hc => isHexDigit_of_isLowerHexDigit (hlower c hc)⟩
    rw [hlength]
    decide
  exact (hexToByteArray_eq_iff (hpairs hs hsend) (hpairs ht htend)).mp h

section runs

variable {contexts : String → WorkerDifficulty} {events : List Event}

theorem exists_submission_of_mem_credits {credit : Credit}
    (h : credit ∈ PoolState.credits pool { contexts } events) :
    ∃ submitted ∈ submissions pool events { contexts }, submitted.credit = some credit := by
  rw [credits_eq_creditedValues] at h
  obtain ⟨submitted, hmem, -, -, hcredit, -⟩ := exists_of_mem_creditedValues h
  exact ⟨submitted, hmem, hcredit⟩

/-- A share is checked against the template of its worker job, if that is the current one whenever
its height is. -/
theorem job_eq_preparedFrom
    (hown : ∀ submitted ∈ submissions pool events { contexts }, submitted.ComesFromCurrent)
    {credit : Credit} (h : credit ∈ PoolState.credits pool { contexts } events) :
    credit.job = credit.preparedFrom := by
  obtain ⟨submitted, hmem, hcredit⟩ := exists_submission_of_mem_credits h
  have hcredited := isCredited_of_mem_submissions hmem hcredit
  obtain ⟨job, hjob, -, -, hheight⟩ := hcredited.job
  rw [← hcredited.preparedFrom]
  exact (hown submitted hmem (credit.job, job) hjob hheight).symm

/-- The slots of the credits are all different. -/
theorem nodup_slots
    (hend : ∀ submitted ∈ submissions pool events { contexts },
      submitted.nonce.getLast? ≠ some '\n')
    (hown : ∀ submitted ∈ submissions pool events { contexts }, submitted.ComesFromCurrent)
    (hcount : ∀ number, classCount PreparedJob.preparedFrom number
      (finalState pool contexts events).workerJobs.created < 2 ^ 31) :
    ((PoolState.credits pool { contexts } events).map Credit.slot).Nodup := by
  rw [credits_eq_creditedValues, map_creditedValues]
  apply nodup_creditedValues
  intro first hfirst second hsecond key key' slot hkey hkey' hslot hslot'
  obtain ⟨credit, hcredit, hcreditSlot⟩ := Option.map_eq_some_iff.mp hslot
  obtain ⟨credit', hcredit', hcreditSlot'⟩ := Option.map_eq_some_iff.mp hslot'
  have hcredited := isCredited_of_mem_submissions hfirst hcredit
  have hcredited' := isCredited_of_mem_submissions hsecond hcredit'
  rw [← hcreditSlot', Credit.slot, Credit.slot, Prod.mk.injEq, Prod.mk.injEq] at hcreditSlot
  obtain ⟨hjob, hextraNonce, hnonce⟩ := hcreditSlot
  have hfrom : first.workerJob.preparedFrom = credit.job := by
    obtain ⟨job, hcurrent, -, -, hheight⟩ := hcredited.job
    exact hown first hfirst (credit.job, job) hcurrent hheight
  have hfrom' : second.workerJob.preparedFrom = credit.job := by
    obtain ⟨job, hcurrent, -, -, hheight⟩ := hcredited'.job
    rw [hjob]
    exact hown second hsecond (credit'.job, job) hcurrent hheight
  have hreference : first.reference = second.reference := by
    apply (isNumbered_finalState contexts events).reference_unique (hcount credit.job)
      hcredited.workerJob hcredited'.workerJob hfrom hfrom'
    rw [hcredited.extraNonce, hcredited'.extraNonce, hextraNonce]
  have htext : ignoringCase first.nonce = ignoringCase second.nonce := by
    apply ignoringCase_eq_of_hexToByteArray_eq hcredited.digits hcredited'.digits
      (hend first hfirst) (hend second hsecond)
    rw [hcredited.nonce, hcredited'.nonce, hnonce]
  rw [Option.some.injEq] at hkey hkey'
  rw [← hkey, ← hkey', Submitted.key, Submitted.key, hreference, htext]

/-- Jobs of different templates make different works of different slots. -/
theorem slot_eq_of_work_eq
    (htemplates : ((finalState pool contexts events).jobs.map
      CryptonoteJob.blockTemplate).Nodup)
    {credit credit' : Credit} (h : credit ∈ PoolState.credits pool { contexts } events)
    (h' : credit' ∈ PoolState.credits pool { contexts } events)
    (hwork : credit.work = credit'.work) : credit.slot = credit'.slot := by
  obtain ⟨submitted, hmem, hcredit⟩ := exists_submission_of_mem_credits h
  obtain ⟨submitted', hmem', hcredit'⟩ := exists_submission_of_mem_credits h'
  obtain ⟨job, -, hjob, htemplate, -⟩ := (isCredited_of_mem_submissions hmem hcredit).job
  obtain ⟨job', -, hjob', htemplate', -⟩ := (isCredited_of_mem_submissions hmem' hcredit').job
  obtain ⟨hlt, -⟩ := List.getElem?_eq_some_iff.mp hjob
  have hnumber : credit.job = credit'.job := by
    apply (List.getElem?_inj _ htemplates).mp
    · rw [List.getElem?_map, List.getElem?_map, hjob, hjob', Option.map_some, Option.map_some,
        htemplate, htemplate', hwork]
    · rwa [List.length_map]
  rw [Credit.slot, Credit.slot, hnumber, hwork]

/-- In a run whose nonces have no line feed, and whose worker jobs of the height of the current job
come from it, no template gets credit for a nonce of an extranonce twice, and every share is checked
against the template of its worker job. A template that makes two jobs counts as two. -/
theorem nodup_credits_of_currentJobs (pool : CryptonotePool) (contexts : String → WorkerDifficulty)
    (events : List Event)
    (hend : ∀ submitted ∈ submissions pool events { contexts },
      submitted.nonce.getLast? ≠ some '\n')
    (hown : ∀ submitted ∈ submissions pool events { contexts }, submitted.ComesFromCurrent)
    (hcount : ∀ number, classCount PreparedJob.preparedFrom number
      (finalState pool contexts events).workerJobs.created < 2 ^ 31) :
    ((PoolState.credits pool { contexts } events).map Credit.slot).Nodup ∧
    (∀ credit ∈ PoolState.credits pool { contexts } events, credit.job = credit.preparedFrom) ∧
    (((finalState pool contexts events).jobs.map CryptonoteJob.blockTemplate).Nodup →
      ((PoolState.credits pool { contexts } events).map Credit.work).Nodup) := by
  have hslots := nodup_slots hend hown hcount
  refine ⟨hslots, fun credit => job_eq_preparedFrom hown, fun htemplates => ?_⟩
  rw [List.nodup_iff_pairwise_ne, List.pairwise_map] at hslots ⊢
  exact hslots.imp_of_mem fun hmem hmem' hne hwork =>
    hne (slot_eq_of_work_eq htemplates hmem hmem' hwork)

end runs

section lineFeeds

variable {state : PoolState} {connectionId workerId : String} {jobId nonce hash : List Char}
  {accepted : Bool}

/-- The worker job that a request names does not depend on the nonce. -/
theorem PoolState.checkRequest_nonce {reference : ℕ} {workerJob : PreparedJob}
    {checked : List Char}
    (h : state.checkRequest connectionId ⟨workerId, jobId, some nonce, hash⟩ =
      .ok (reference, workerJob, checked)) (other : List Char) :
    checked = nonce ∧ state.checkRequest connectionId ⟨workerId, jobId, some other, hash⟩ =
      .ok (reference, workerJob, other) := by
  rw [checkRequest] at h ⊢
  split at h
  · cases h
  · rename_i hworker
    rw [if_neg hworker]
    split at h
    · cases h
    · rename_i hget
      cases h
      dsimp only at hget ⊢
      rw [hget]
      exact ⟨rfl, rfl⟩

theorem PoolState.submitShare_lineFeed (workerJob : CryptonoteWorkerJob)
    (h : matchesDigits 8 nonce) (hend : nonce.getLast? ≠ some '\n') :
    state.submitShare pool connectionId workerJob (nonce ++ ['\n']) hash accepted =
      state.submitShare pool connectionId workerJob nonce hash accepted := by
  rw [submitShare, submitShare]
  cases state.currentJob with
  | none => rfl
  | some job => simp only [CryptonotePool.processShare_lineFeed h hend]

/-- A nonce is credited again with a line feed behind it. -/
theorem credits_lineFeed {submitted : Submitted} {credit : Credit}
    (h : state.submitted pool (.submit connectionId ⟨workerId, jobId, some nonce, hash⟩ accepted) =
      some submitted)
    (hcredit : submitted.credit = some credit) (hend : nonce.getLast? ≠ some '\n') :
    state.credits pool [.submit connectionId ⟨workerId, jobId, some nonce, hash⟩ accepted,
      .submit connectionId ⟨workerId, jobId, some (nonce ++ ['\n']), hash⟩ accepted] =
        [credit, credit] := by
  have hagain : ∃ again, state.submitted pool
      (.submit connectionId ⟨workerId, jobId, some (nonce ++ ['\n']), hash⟩ accepted) =
        some again ∧ again.credit = some credit ∧ again.key ≠ submitted.key := by
    rw [PoolState.submitted] at h ⊢
    split at h
    · cases h
    · rename_i reference workerJob checked hcheck
      obtain ⟨rfl, hother⟩ := PoolState.checkRequest_nonce hcheck (nonce ++ ['\n'])
      cases h
      rw [hother]
      refine ⟨_, rfl, ?_, ?_⟩
      · rw [Submitted.credit] at hcredit ⊢
        split at hcredit
        · rename_i hshare
          obtain ⟨-, -, -, hdigits⟩ := PoolState.of_submitShare hshare
          obtain ⟨hlength, hlower⟩ := of_matchesDigits hdigits hend
          have hbytes : hexToByteArray (checked ++ ['\n']) = hexToByteArray checked :=
            hexToByteArray_lineFeed (fun c hc => isHexDigit_of_isLowerHexDigit (hlower c hc)) (by
              rw [hlength]
              decide)
          dsimp only at hshare hcredit ⊢
          rw [PoolState.submitShare_lineFeed _ hdigits hend, if_pos hshare, hbytes, hcredit]
        · cases hcredit
      · intro hkey
        have hlength := congrArg List.length (Prod.ext_iff.mp hkey).2
        simp [Submitted.key, ignoringCase] at hlength
  obtain ⟨again, hsecond, hcredit', hkey⟩ := hagain
  exact acceptedAlong_pair registers_process h hsecond hkey hcredit hcredit'

end lineFeeds

namespace Reorganisation

/-- A pool whose hash is the same for every blob. -/
def easyPool (coin : Coin) : CryptonotePool where
  coin
  instanceId := [1, 2, 3, 4]
  convertBlob := some
  getBlockId := id
  cryptonightHashFast := id
  isBlockCandidate _ _ := false
  isLow _ _ := false
  shareDiff _ := ""

def cryptonote : CryptonotePool := easyPool (.cryptonote (fun _ _ _ => [0xab]) 0)

def conceal : CryptonotePool := easyPool (.conceal (fun _ _ => [0xab]) 0)

def contexts : String → WorkerDifficulty := fun _ => { difficulty := 1000 }

/-- A template of the first height on the block whose hash has one digit only. -/
def templateOn (digit : Char) : BlockTemplate where
  blob := List.replicate 14 '0' ++ List.replicate 64 digit ++ List.replicate 42 '0'
  difficulty := 1000
  height := 1
  seedHash := []
  reservedOffset := 48

def submit (connectionId jobId nonce : String) : Event :=
  .submit connectionId ⟨connectionId, jobId.toList, some nonce.toList, "ab".toList⟩ true

/-- One nonce twice, the second time with a line feed. -/
def lineFeed : List Event :=
  [.updateJob (templateOn '1'), .createWorkerJob "A", submit "A" "1" "0000000a",
    submit "A" "1" "0000000a\n"]

/-- A template of the same height comes between a worker job and its submission. -/
def sameHeight : List Event :=
  [.updateJob (templateOn '1'), .createWorkerJob "A", .updateJob (templateOn '2'),
    .createWorkerJob "B", submit "A" "1" "0000000a", submit "B" "2" "0000000a"]

/-- Two worker jobs of one connection, and one of the next job for another connection. -/
def twoTemplates : List Event :=
  [.updateJob (templateOn '1'), .createWorkerJob "A", .createWorkerJob "A",
    submit "A" "1" "0000000a", submit "A" "2" "0000000a", .updateJob (templateOn '2'),
    .createWorkerJob "B", submit "B" "3" "0000000a"]

end Reorganisation

open Reorganisation in
theorem not_nodup_credits_sameHeight :
    ¬ ((PoolState.credits cryptonote { contexts } lineFeed).map Credit.slot).Nodup ∧
    ¬ ((PoolState.credits conceal { contexts } sameHeight).map Credit.slot).Nodup ∧
    ¬ ∀ credit ∈ PoolState.credits conceal { contexts } sameHeight,
      credit.job = credit.preparedFrom := by
  decide +kernel

open Reorganisation in
theorem nodup_credits_twoTemplates :
    ((PoolState.credits cryptonote { contexts } twoTemplates).map Credit.slot).Nodup ∧
    (∀ credit ∈ PoolState.credits cryptonote { contexts } twoTemplates,
      credit.job = credit.preparedFrom) ∧
    (((finalState cryptonote contexts twoTemplates).jobs.map CryptonoteJob.blockTemplate).Nodup →
      ((PoolState.credits cryptonote { contexts } twoTemplates).map Credit.work).Nodup) := by
  apply nodup_credits_of_currentJobs
  · decide +kernel
  · decide +kernel
  · intro number
    have hlength : (finalState cryptonote contexts twoTemplates).workerJobs.created.length = 3 := by
      decide +kernel
    refine List.countP_le_length.trans_lt ?_
    rw [hlength]
    decide

end Miningcore.Cryptonote
