import Miningcore.Blockchain.Ergo.ErgoJob
import Miningcore.Foundation.Registry

/-!
# Coinbases credited twice

The registry of an Ergo job keeps the time of a submission, which is not hashed, and
the text of its nonce, of which only the bytes are. A coinbase is credited again at
another time, and in another spelling that has digits where the first one has none.
-/

namespace Miningcore.Ergo

open Foundation

namespace Submission

variable (submission : Submission)

/-- The time and the nonce that are registered with a job, and none when the submission is refused
before or is for another job. -/
def registeredFor (job : ErgoJob) : Option (List Char × List Char) :=
  match submission.params with
  | .error _ => none
  | .ok (jobId, params) =>
      if jobId = job.jobId then
        (job.checkSubmission submission.context params.extraNonce2 params.nTime
          params.nonce).toOption
      else none

end Submission

namespace ErgoJob

variable (job : ErgoJob)

/-- The coinbases of the accepted shares, in the order of the submissions. -/
def acceptedCoinbases : List Submission → JobState → List (List UInt8)
  | [], _ => []
  | submission :: rest, state =>
      match submission.params with
      | .error _ => acceptedCoinbases rest state
      | .ok (jobId, params) =>
          if jobId = job.jobId then
            match job.processShare submission.context params.extraNonce2 params.nTime
                params.nonce state with
            | (state, .ok _) =>
                job.serializeCoinbase params.nonce :: acceptedCoinbases rest state
            | (state, .error _) => acceptedCoinbases rest state
          else acceptedCoinbases rest state

/-- What is registered. -/
def submissionKey (submission : Submission) : Option (List Char) :=
  (submission.registeredFor job).map fun registered => ignoringCase (registered.1 ++ registered.2)

/-- The coinbase of a submission that is good enough for a share. -/
def goodCoinbase (submission : Submission) : Option (List UInt8) :=
  (submission.registeredFor job).bind fun registered =>
    if (job.processShareInternal submission.context.toWorkerDifficulty
        registered.2).toOption.isSome then
      some (job.serializeCoinbase registered.2)
    else none

/-- The nonces for the job are digits. -/
def HasHexNonce (submission : Submission) : Prop :=
  ∀ registered ∈ submission.registeredFor job, ∀ c ∈ registered.2, isHexDigit c

instance instDecidableHasHexNonce (submission : Submission) :
    Decidable (job.HasHexNonce submission) :=
  haveI (registered : List Char × List Char) : Decidable (∀ c ∈ registered.2, isHexDigit c) :=
    List.decidableBAll _ _
  inferInstanceAs (Decidable (∀ registered ∈ submission.registeredFor job,
    ∀ c ∈ registered.2, isHexDigit c))

/-- A nonce comes to the job with one time only. -/
def HasOneTime (submissions : List Submission) : Prop :=
  ∀ first ∈ submissions, ∀ second ∈ submissions, ∀ registered ∈ first.registeredFor job,
    ∀ registered' ∈ second.registeredFor job,
      ignoringCase registered.2 = ignoringCase registered'.2 →
        ignoringCase registered.1 = ignoringCase registered'.1

end ErgoJob

variable {job : ErgoJob} {submission : Submission}

theorem acceptedCoinbases_eq_creditedValues (submissions : List Submission) (state : JobState) :
    job.acceptedCoinbases submissions state =
      creditedValues job.submissionKey job.goodCoinbase submissions state.submissions := by
  induction submissions generalizing state with
  | nil => rfl
  | cons submission rest ih =>
      rw [ErgoJob.acceptedCoinbases, creditedValues, ErgoJob.submissionKey, ErgoJob.goodCoinbase,
        Submission.registeredFor]
      cases submission.params with
      | error exception => exact ih state
      | ok named =>
          obtain ⟨jobId, params⟩ := named
          dsimp only
          split
          · rw [ErgoJob.processShare]
            cases hcheck : job.checkSubmission submission.context params.extraNonce2 params.nTime
                params.nonce with
            | error exception => exact ih state
            | ok registered =>
                obtain ⟨nTime, nonce⟩ := registered
                have hnonce : nonce = params.nonce := (ErgoJob.of_checkSubmission hcheck).1
                simp only [Except.toOption, Option.map_some, Option.bind_some, registerSubmit]
                by_cases hmem : ignoringCase (nTime ++ nonce) ∈ state.submissions
                · simp only [hmem, if_true, ih]
                · simp only [hmem, if_false]
                  cases hshare : job.processShareInternal
                      submission.context.toWorkerDifficulty nonce with
                  | error exception => simp [ih]
                  | ok share => simp [ih, hnonce]
          · exact ih state

theorem goodCoinbase_eq_some_iff {coinbase : List UInt8} :
    job.goodCoinbase submission = some coinbase ↔
      ∃ registered, submission.registeredFor job = some registered ∧
        (job.processShareInternal submission.context.toWorkerDifficulty
          registered.2).toOption.isSome ∧
        job.serializeCoinbase registered.2 = coinbase := by
  rw [ErgoJob.goodCoinbase, Option.bind_eq_some_iff]
  apply exists_congr
  intro registered
  apply and_congr_right
  intro _
  rw [Option.ite_none_right_eq_some, Option.some.injEq]

theorem even_of_registeredFor {registered : List Char × List Char}
    (h : submission.registeredFor job = some registered) : Even registered.2.length := by
  rw [Submission.registeredFor] at h
  split at h
  · cases h
  · split at h
    · rename_i jobId params _ _
      cases hcheck : job.checkSubmission submission.context params.extraNonce2 params.nTime
          params.nonce with
      | error exception => simp [hcheck, Except.toOption] at h
      | ok registered' =>
          obtain ⟨hnonce, heven, -⟩ := ErgoJob.of_checkSubmission hcheck
          rw [hcheck, Except.toOption, Option.some.injEq] at h
          rw [← h, hnonce]
          exact heven
    · cases h

/-- No coinbase is credited twice in a run whose nonces for the job are digits and come with one
time each. -/
theorem nodup_acceptedCoinbases (job : ErgoJob) (submissions : List Submission)
    (hdigits : ∀ submission ∈ submissions, job.HasHexNonce submission)
    (htime : job.HasOneTime submissions) : (job.acceptedCoinbases submissions {}).Nodup := by
  rw [acceptedCoinbases_eq_creditedValues]
  apply nodup_creditedValues
  intro first hfirst second hsecond key key' coinbase hkey hkey' hgood hgood'
  obtain ⟨registered, hregistered, -, hcoinbase⟩ := goodCoinbase_eq_some_iff.mp hgood
  obtain ⟨registered', hregistered', -, hcoinbase'⟩ := goodCoinbase_eq_some_iff.mp hgood'
  have hpairs : IsHexPairs registered.2 :=
    ⟨even_of_registeredFor hregistered, hdigits first hfirst registered hregistered⟩
  have hpairs' : IsHexPairs registered'.2 :=
    ⟨even_of_registeredFor hregistered', hdigits second hsecond registered' hregistered'⟩
  have hnonce : ignoringCase registered.2 = ignoringCase registered'.2 := by
    rw [← hcoinbase', ErgoJob.serializeCoinbase, ErgoJob.serializeCoinbase] at hcoinbase
    exact (hexToByteArray_eq_iff hpairs hpairs').mp (List.append_cancel_left hcoinbase)
  have hsame := htime first hfirst second hsecond registered hregistered registered' hregistered'
    hnonce
  rw [ErgoJob.submissionKey, hregistered, Option.map_some, Option.some.injEq] at hkey
  rw [ErgoJob.submissionKey, hregistered', Option.map_some, Option.some.injEq] at hkey'
  rw [← hkey, ← hkey', ignoringCase_append, ignoringCase_append, hsame, hnonce]

/-- A good coinbase is credited again under any other text. -/
theorem acceptedCoinbases_pair {first second : Submission} {coinbase : List UInt8}
    (hgood : job.goodCoinbase first = some coinbase)
    (hgood' : job.goodCoinbase second = some coinbase)
    (hne : job.submissionKey second ≠ job.submissionKey first) :
    job.acceptedCoinbases [first, second] {} = [coinbase, coinbase] := by
  obtain ⟨registered, hregistered, -, -⟩ := goodCoinbase_eq_some_iff.mp hgood
  obtain ⟨registered', hregistered', -, -⟩ := goodCoinbase_eq_some_iff.mp hgood'
  rw [ErgoJob.submissionKey, ErgoJob.submissionKey, hregistered, hregistered', Option.map_some,
    Option.map_some, Ne, Option.some.injEq] at hne
  rw [acceptedCoinbases_eq_creditedValues]
  apply creditedValues_pair _ _ hne hgood hgood'
  · rw [ErgoJob.submissionKey, hregistered, Option.map_some]
  · rw [ErgoJob.submissionKey, hregistered', Option.map_some]

/-- Any other spelling of a good nonce is credited besides the one of digits. -/
theorem acceptedCoinbases_spelling {first second : Submission} {coinbase : List UInt8}
    {nTime nonce nonce' : List Char} (hgood : job.goodCoinbase first = some coinbase)
    (hgood' : job.goodCoinbase second = some coinbase)
    (hregistered : first.registeredFor job = some (nTime, nonce))
    (hregistered' : second.registeredFor job = some (nTime, nonce'))
    (hdigits : job.HasHexNonce first) (h : ¬ job.HasHexNonce second) :
    job.acceptedCoinbases [first, second] {} = [coinbase, coinbase] := by
  apply acceptedCoinbases_pair hgood hgood'
  rw [ErgoJob.submissionKey, ErgoJob.submissionKey, hregistered, hregistered', Option.map_some,
    Option.map_some, Ne, Option.some.injEq, ignoringCase_append, ignoringCase_append]
  intro hkey
  have hsame : ignoringCase nonce' = ignoringCase nonce := List.append_cancel_left hkey
  apply h
  intro registered hmem
  rw [Option.mem_def, hregistered', Option.some.injEq] at hmem
  rw [← hmem]
  exact isHexDigit_of_ignoringCase_eq (hdigits (nTime, nonce) hregistered) hsame

/-- A submission with another time. -/
def Submission.atTime (submission : Submission) (nTime : List Char) : Submission :=
  { submission with submitParams := submission.submitParams.set 3 (some nTime) }

theorem params_atTime {jobId : List Char} {params : SubmitParams}
    (h : submission.params = .ok (jobId, params)) (nTime : List Char) :
    (submission.atTime nTime).params = .ok (jobId, { params with nTime }) := by
  obtain ⟨context, submitParams⟩ := submission
  match submitParams with
  | [] | [_] | [_, _] | [_, _, _] | [_, _, _, _] => cases h
  | workerValue :: id :: extraNonce2 :: time :: nonce :: rest =>
      simp only [Submission.params, Submission.atTime, List.set_cons_succ, List.set_cons_zero]
        at h ⊢
      split at h
      · cases h
      · rename_i hworker
        rw [if_neg hworker]
        split at h
        · cases h
        · cases h
          rfl

/-- The job registers the same nonce at the other time. -/
theorem registeredFor_atTime {registered : List Char × List Char} {nTime : List Char}
    (h : submission.registeredFor job = some registered) (htime : nTime ≠ [])
    (hundefined : nTime ≠ "undefined".toList) :
    (submission.atTime nTime).registeredFor job = some (nTime, registered.2) := by
  rw [Submission.registeredFor] at h
  split at h
  · cases h
  · rename_i jobId params hparams
    split at h
    · rename_i hjob
      simp only [Submission.registeredFor, params_atTime hparams, if_pos hjob]
      rw [ErgoJob.checkSubmission] at h ⊢
      split at h
      · cases h
      · rename_i hempty
        rw [not_or] at hempty
        rw [if_neg (not_or.mpr ⟨hempty.1, not_or.mpr ⟨htime, (not_or.mp hempty.2).2⟩⟩)]
        split at h
        · cases h
        · rename_i hlength
          rw [Submission.atTime, if_neg hlength]
          split at h
          · rename_i hstarts
            cases h
            rw [if_pos hstarts, if_neg hundefined]
            rfl
          · cases h
    · cases h

/-- A good coinbase is credited again at any other time. -/
theorem acceptedCoinbases_atTime {coinbase : List UInt8}
    (hgood : job.goodCoinbase submission = some coinbase) {nTime : List Char} (htime : nTime ≠ [])
    (hundefined : nTime ≠ "undefined".toList)
    (hother : ∀ registered ∈ submission.registeredFor job,
      ignoringCase nTime ≠ ignoringCase registered.1) :
    job.acceptedCoinbases [submission, submission.atTime nTime] {} = [coinbase, coinbase] := by
  obtain ⟨registered, hregistered, hshare, hcoinbase⟩ := goodCoinbase_eq_some_iff.mp hgood
  have hregistered' := registeredFor_atTime hregistered htime hundefined
  have hgood' : job.goodCoinbase (submission.atTime nTime) = some coinbase :=
    goodCoinbase_eq_some_iff.mpr ⟨_, hregistered', hshare, hcoinbase⟩
  apply acceptedCoinbases_pair hgood hgood'
  rw [ErgoJob.submissionKey, ErgoJob.submissionKey, hregistered, hregistered', Option.map_some,
    Option.map_some, Ne, Option.some.injEq, ignoringCase_append, ignoringCase_append]
  intro hkey
  exact hother registered hregistered (List.append_cancel_right hkey)

namespace SharedCoinbases

/-- A job that takes every coinbase for a share. -/
def easyJob : ErgoJob where
  jobId := "00000001".toList
  height := 1
  msg := "ab".toList
  b := 0
  difficulty := 1
  extraNonceSize := 6
  hash _ := 1
  isLow _ _ := false
  shareDiff _ := ""

/-- The first worker of the pool. -/
def context : ErgoWorkerContext :=
  (getSubscriberData Nat.two_pos (.initial 2 1)
    { difficulty := 1, extraNonce1 := [], isHexPairs_extraNonce1 := isHexPairs_nil
      validJobs := [easyJob.jobId] }).1

def submit (nTime nonce : String) : Submission where
  context
  submitParams := ["worker", "00000001", "000000000001", nTime, nonce].map fun text =>
    some text.toList

end SharedCoinbases

open SharedCoinbases in
/-- One nonce at two times. -/
theorem not_nodup_acceptedCoinbases : ¬ (easyJob.acceptedCoinbases
    [submit "5f000000" "1001000000000001", submit "5f000001" "1001000000000001"] {}).Nodup := by
  decide +kernel

open SharedCoinbases in
theorem nodup_acceptedCoinbases_oneTime : (easyJob.acceptedCoinbases
    [submit "undefined" "100100000000000a", submit "undefined" "100100000000000A",
      submit "5f000001" "1001000000000001"] {}).Nodup := by
  apply nodup_acceptedCoinbases
  · decide +kernel
  · unfold ErgoJob.HasOneTime
    decide +kernel

end Miningcore.Ergo
