import Miningcore.Stratum.Submission
import Miningcore.Foundation.Registry

/-!
# Shares of an Ethereum job

A submission names a job of its worker, by the header in version 1 of the
protocol and by the id in version 2, where the worker's extranonce comes in front
of the nonce. The job registers the nonce's text for the connection.

## Implementation notes

The light cache is there; what it computes is a function of the nonce. The
registry is the set of its pairs of a connection and a text.
-/

namespace Miningcore.Ethereum

open Foundation

/-- What a job is looked up by. -/
structure JobKey where
  id : List Char
  header : List Char
deriving DecidableEq

structure EthereumWorkerContext extends WorkerDifficulty where
  extraNonce1 : List Char
  validJobs : List JobKey

structure EthereumJob where
  key : JobKey
  height : Nat
  blockTarget : Nat
  /-- The result of a nonce as a number, and its mix digest. -/
  compute : Nat → Option (Nat × String)
  /-- Whether the share-diff of a result is below 0.99 of a difficulty. -/
  isLow : Nat → ℚ → Bool
  /-- The text of the share-diff of a result. -/
  shareDiff : Nat → String

structure JobState where
  workerNonces : List (String × List Char) := []
deriving DecidableEq

structure SubmitResult where
  share : MinedShare
  fullNonceHex : Option (List Char) := none
  headerHash : Option (List Char) := none
  mixHash : Option String := none
deriving DecidableEq

structure Submission where
  connectionId : String
  context : EthereumWorkerContext
  v1 : Bool
  request : List (List Char)

def pow2x32 : ℚ := 2 ^ 32

/-- The job and the full nonce of a request. -/
def Submission.target (submission : Submission) :
    Except SubmitException (JobKey × List Char) :=
  match submission.request with
  | [first, second, third] =>
      if first = [] ∨ second = [] ∨ third = [] then
        .error (.stratum .minusOne "malformed PoW result")
      else if submission.v1 then
        match submission.context.validJobs.find? (·.header = second) with
        | none => .error (.stratum .minusOne "stale share")
        | some key => .ok (key, stripHexPrefix first)
      else
        match submission.context.validJobs.find? (·.id = second) with
        | none => .error (.stratum .minusOne "stale share")
        | some key => .ok (key, submission.context.extraNonce1 ++ third)
  | _ => .error (.stratum .minusOne "malformed PoW result")

def registerNonce (connectionId : String) (nonce : List Char) (state : JobState) :
    Option JobState :=
  if (connectionId, ignoringCase nonce) ∈ state.workerNonces then none
  else some { workerNonces := (connectionId, ignoringCase nonce) :: state.workerNonces }

namespace EthereumJob

variable (job : EthereumJob)

/-- The share of a nonce. -/
def hashShare (context : EthereumWorkerContext) (fullNonceHex : List Char) (fullNonce : Nat) :
    Except SubmitException SubmitResult :=
  match job.compute fullNonce with
  | none => .error (.stratum .minusOne "bad hash")
  | some (resultValue, mixDigest) =>
      let isBlockCandidate := decide (resultValue ≤ job.blockTarget)
      match stratumDifficulty context.toWorkerDifficulty isBlockCandidate
          (job.isLow resultValue) with
      | none => .error (.stratum .lowDifficultyShare
          s!"low difficulty share ({job.shareDiff resultValue})")
      | some difficulty =>
          let share : MinedShare :=
            { blockHeight := job.height
              difficulty := difficulty * pow2x32
              isBlockCandidate
              transactionConfirmationData := if isBlockCandidate then some "" else none }
          .ok (if isBlockCandidate then
              ⟨share, some ("0x".toList ++ fullNonceHex), some job.key.header, some mixDigest⟩
            else ⟨share, none, none, none⟩)

def processShare (connectionId : String) (context : EthereumWorkerContext)
    (fullNonceHex : List Char) (state : JobState) :
    JobState × Except SubmitException SubmitResult :=
  match registerNonce connectionId fullNonceHex state with
  | none => (state, .error (.stratum .minusOne "duplicate share"))
  | some state =>
      match tryParseHexNumber 64 fullNonceHex with
      | none => (state, .error (.stratum .minusOne ("bad nonce " ++ String.ofList fullNonceHex)))
      | some fullNonce => (state, job.hashShare context fullNonceHex fullNonce)

end EthereumJob

/-!
## Solutions credited twice

The registry keeps the texts of each connection. A nonce is credited again on another
connection, and on the same one in another spelling.
-/

/-- The nonce a submission brings to a job, and none when it is refused or for another job. -/
def Submission.fullNonceFor (submission : Submission) (key : JobKey) : Option (List Char) :=
  match submission.target with
  | .ok (jobKey, fullNonceHex) => if jobKey = key then some fullNonceHex else none
  | .error _ => none

namespace EthereumJob

variable (job : EthereumJob)

/-- The nonces of the accepted shares, in the order of the submissions. -/
def acceptedNonces : List Submission → JobState → List Nat
  | [], _ => []
  | submission :: rest, state =>
      match submission.fullNonceFor job.key with
      | none => acceptedNonces rest state
      | some fullNonceHex =>
          match job.processShare submission.connectionId submission.context fullNonceHex state with
          | (state, .ok _) =>
              (tryParseHexNumber 64 fullNonceHex).toList ++ acceptedNonces rest state
          | (state, .error _) => acceptedNonces rest state

/-- What is registered. -/
def submissionKey (submission : Submission) : Option (String × List Char) :=
  (submission.fullNonceFor job.key).map fun fullNonceHex =>
    (submission.connectionId, ignoringCase fullNonceHex)

/-- The nonce of a submission that is good enough for a share. -/
def goodNonce (submission : Submission) : Option Nat :=
  match submission.fullNonceFor job.key with
  | none => none
  | some fullNonceHex =>
      match tryParseHexNumber 64 fullNonceHex with
      | none => none
      | some n =>
          if (job.hashShare submission.context fullNonceHex n).toOption.isSome then some n
          else none

/-- The nonces for the job have one digit for every four bits. -/
def HasFullLength (submission : Submission) : Prop :=
  ∀ fullNonceHex ∈ submission.fullNonceFor job.key,
    fullNonceHex.length = 16 ∧ ∀ c ∈ fullNonceHex, isHexDigit c

/-- No text is a nonce for the job on two connections. -/
def HasOwnNonces (submissions : List Submission) : Prop :=
  ∀ first ∈ submissions, ∀ second ∈ submissions,
    ∀ text ∈ first.fullNonceFor job.key, ∀ text' ∈ second.fullNonceFor job.key,
      ignoringCase text = ignoringCase text' → first.connectionId = second.connectionId

end EthereumJob

variable {job : EthereumJob} {submission : Submission}

theorem acceptedNonces_eq_creditedValues (submissions : List Submission) (state : JobState) :
    job.acceptedNonces submissions state =
      creditedValues job.submissionKey job.goodNonce submissions state.workerNonces := by
  induction submissions generalizing state with
  | nil => rfl
  | cons submission rest ih =>
      rw [EthereumJob.acceptedNonces, creditedValues, EthereumJob.submissionKey,
        EthereumJob.goodNonce]
      cases submission.fullNonceFor job.key with
      | none => exact ih state
      | some fullNonceHex =>
          simp only [Option.map_some, EthereumJob.processShare, registerNonce]
          by_cases hmem : (submission.connectionId, ignoringCase fullNonceHex) ∈ state.workerNonces
          · simp only [hmem, if_true, ih]
          · simp only [hmem, if_false]
            cases hparse : tryParseHexNumber 64 fullNonceHex with
            | none => simp [ih]
            | some n =>
                cases hshare : job.hashShare submission.context fullNonceHex n with
                | error exception => simp [ih, hshare, Except.toOption]
                | ok result => simp [ih, hshare, Except.toOption]

theorem goodNonce_eq_some_iff {n : Nat} : job.goodNonce submission = some n ↔
    ∃ fullNonceHex, submission.fullNonceFor job.key = some fullNonceHex ∧
      tryParseHexNumber 64 fullNonceHex = some n ∧
      (job.hashShare submission.context fullNonceHex n).toOption.isSome := by
  rw [EthereumJob.goodNonce]
  cases submission.fullNonceFor job.key with
  | none => simp
  | some fullNonceHex =>
      cases hparse : tryParseHexNumber 64 fullNonceHex with
      | none => simp [hparse]
      | some n' =>
          simp only [Option.some.injEq, exists_eq_left', hparse]
          split
          · rename_i hshare
            rw [Option.some.injEq]
            exact ⟨fun h => ⟨h, h ▸ hshare⟩, fun h => h.1⟩
          · rename_i hshare
            exact iff_of_false (by simp) fun h => hshare (h.1 ▸ h.2)

/-- No nonce is credited twice in a run whose nonces for the job have sixteen digits and are each
submitted on one connection only. -/
theorem nodup_acceptedNonces (job : EthereumJob) (submissions : List Submission)
    (hlength : ∀ submission ∈ submissions, job.HasFullLength submission)
    (hown : job.HasOwnNonces submissions) : (job.acceptedNonces submissions {}).Nodup := by
  rw [acceptedNonces_eq_creditedValues]
  apply nodup_creditedValues
  intro first hfirst second hsecond key key' n hkey hkey' hgood hgood'
  obtain ⟨text, htext, hparse, -⟩ := goodNonce_eq_some_iff.mp hgood
  obtain ⟨text', htext', hparse', -⟩ := goodNonce_eq_some_iff.mp hgood'
  obtain ⟨hlen, hdigits⟩ := hlength first hfirst text htext
  obtain ⟨hlen', hdigits'⟩ := hlength second hsecond text' htext'
  rw [tryParseHexNumber_of_length hlen hdigits, Option.some.injEq] at hparse
  rw [tryParseHexNumber_of_length hlen' hdigits', Option.some.injEq] at hparse'
  have hsame := ignoringCase_eq_of_hexValue_eq hdigits hdigits' (hlen.trans hlen'.symm)
    (hparse.trans hparse'.symm)
  have hconnection := hown first hfirst second hsecond text htext text' htext' hsame
  rw [EthereumJob.submissionKey, htext, Option.map_some, Option.some.injEq] at hkey
  rw [EthereumJob.submissionKey, htext', Option.map_some, Option.some.injEq] at hkey'
  rw [← hkey, ← hkey', hconnection, hsame]

/-- Extranonces of one length that differ keep the nonces of the connections apart. -/
theorem hasOwnNonces_of_extraNonce1 (job : EthereumJob) (submissions : List Submission)
    (hversion : ∀ submission ∈ submissions, submission.v1 = false)
    (hapart : ∀ first ∈ submissions, ∀ second ∈ submissions,
      first.context.extraNonce1.length = second.context.extraNonce1.length ∧
        (ignoringCase first.context.extraNonce1 = ignoringCase second.context.extraNonce1 →
          first.connectionId = second.connectionId)) :
    job.HasOwnNonces submissions := by
  have hprefix : ∀ submission ∈ submissions, ∀ text ∈ submission.fullNonceFor job.key,
      ∃ nonce, text = submission.context.extraNonce1 ++ nonce := by
    intro submission hmem text htext
    rw [Option.mem_def, Submission.fullNonceFor, Submission.target] at htext
    rw [hversion submission hmem] at htext
    split at htext
    · rename_i jobKey fullNonceHex htarget
      split at htarget
      · split at htarget
        · cases htarget
        · simp only [Bool.false_eq_true, if_false] at htarget
          split at htarget
          · cases htarget
          · rename_i third _ _ _ _
            cases htarget
            split at htext
            · cases htext
              exact ⟨_, rfl⟩
            · cases htext
      · cases htarget
    · cases htext
  intro first hfirst second hsecond text htext text' htext' hsame
  obtain ⟨nonce, rfl⟩ := hprefix first hfirst text htext
  obtain ⟨nonce', rfl⟩ := hprefix second hsecond text' htext'
  obtain ⟨hlength, hconnection⟩ := hapart first hfirst second hsecond
  rw [ignoringCase_append, ignoringCase_append] at hsame
  exact hconnection (List.append_inj_left hsame (by simpa using hlength))

/-- A good nonce is credited once for every connection that submits it. -/
theorem acceptedNonces_other_connection {n : Nat} (hgood : job.goodNonce submission = some n)
    {connectionId : String} (hne : connectionId ≠ submission.connectionId) :
    job.acceptedNonces [submission, { submission with connectionId }] {} = [n, n] := by
  obtain ⟨text, htext, -, -⟩ := goodNonce_eq_some_iff.mp hgood
  have hkey : job.submissionKey submission =
      some (submission.connectionId, ignoringCase text) := by
    rw [EthereumJob.submissionKey, htext, Option.map_some]
  have hkey' : job.submissionKey { submission with connectionId } =
      some (connectionId, ignoringCase text) := by
    have htext' : Submission.fullNonceFor { submission with connectionId } job.key = some text :=
      htext
    rw [EthereumJob.submissionKey, htext', Option.map_some]
  rw [acceptedNonces_eq_creditedValues]
  exact creditedValues_pair hkey hkey' (fun heq => hne (Prod.ext_iff.mp heq).1) hgood hgood

/-- Any other spelling of a good nonce is credited besides the one of sixteen digits. -/
theorem acceptedNonces_spelling {first second : Submission} {n : Nat}
    (hgood : job.goodNonce first = some n) (hgood' : job.goodNonce second = some n)
    (hlength : job.HasFullLength first) (h : ¬ job.HasFullLength second) :
    job.acceptedNonces [first, second] {} = [n, n] := by
  obtain ⟨text, htext, -, -⟩ := goodNonce_eq_some_iff.mp hgood
  obtain ⟨text', htext', -, -⟩ := goodNonce_eq_some_iff.mp hgood'
  obtain ⟨hlen, hdigits⟩ := hlength text htext
  have hne : ignoringCase text' ≠ ignoringCase text := by
    intro hsame
    apply h
    intro text'' htext''
    rw [htext', Option.mem_some_iff] at htext''
    rw [← htext'', length_eq_of_ignoringCase_eq hsame, hlen]
    exact ⟨rfl, isHexDigit_of_ignoringCase_eq hdigits hsame⟩
  have hkey : job.submissionKey first = some (first.connectionId, ignoringCase text) := by
    rw [EthereumJob.submissionKey, htext, Option.map_some]
  have hkey' : job.submissionKey second = some (second.connectionId, ignoringCase text') := by
    rw [EthereumJob.submissionKey, htext', Option.map_some]
  rw [acceptedNonces_eq_creditedValues]
  exact creditedValues_pair hkey hkey' (fun heq => hne (Prod.ext_iff.mp heq).2) hgood hgood'

namespace SharedNonces

/-- A job that takes every nonce for a share. -/
def easyJob : EthereumJob where
  key := ⟨"1".toList, "0xabcd".toList⟩
  height := 1
  blockTarget := 0
  compute _ := some (1, "")
  isLow _ _ := false
  shareDiff _ := ""

def getWork (connectionId nonce : String) : Submission where
  connectionId := connectionId
  context := { difficulty := 1, extraNonce1 := "1001".toList, validJobs := [easyJob.key] }
  v1 := true
  request := [nonce.toList, "0xabcd".toList, "0x00".toList]

end SharedNonces

/-- Two version 1 connections submit the nonce 1. -/
theorem not_nodup_acceptedNonces : ¬ (SharedNonces.easyJob.acceptedNonces
    [SharedNonces.getWork "A" "0x0000000000000001", SharedNonces.getWork "B" "0x0000000000000001"]
    {}).Nodup := by
  decide +kernel

theorem nodup_acceptedNonces_cases : (SharedNonces.easyJob.acceptedNonces
    [SharedNonces.getWork "A" "0x000000000000000A", SharedNonces.getWork "A" "000000000000000a",
      SharedNonces.getWork "B" "0x000000000000000b"] {}).Nodup := by
  apply nodup_acceptedNonces
  · simp only [EthereumJob.HasFullLength, ← List.all_eq_true]
    decide +kernel
  · unfold EthereumJob.HasOwnNonces
    decide +kernel

end Miningcore.Ethereum
