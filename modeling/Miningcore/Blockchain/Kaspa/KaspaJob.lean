import Miningcore.Stratum.Submission
import Miningcore.Foundation.Registry

/-!
# Shares of a Kaspa job

A submitted nonce is completed with the worker's extranonce, registered and
written into the header of the job's block template before the header is hashed.

## Implementation notes

The hashes of the header are functions of its nonce, the only field that changes.
The registry holds its texts without their case.
-/

namespace Miningcore.Kaspa

open Foundation

structure KaspaWorkerContext extends WorkerDifficulty where
  extraNonce1 : List Char

/-- What a job was initialised with. -/
structure KaspaJob where
  daaScore : Nat
  difficulty : ℚ
  shareMultiplier : ℚ
  blockTargetValue : Nat
  /-- The hash of the coinbase with a nonce, as a number. -/
  hashCoinbase : Nat → Nat
  /-- The hash of the header with a nonce. -/
  hashHeader : Nat → String
  /-- Whether the share-diff of a hash is below 0.99 of a difficulty. -/
  isLow : Nat → ℚ → Bool
  /-- The text of the share-diff of a hash. -/
  shareDiff : Nat → String

/-- What the submissions of a job change. -/
structure JobState where
  submissions : List (List Char) := []
  headerNonce : Nat := 0
deriving DecidableEq

def nonceLength : Int := 16

def padRight (width : Nat) (c : Char) (s : List Char) : List Char :=
  s ++ List.replicate (width - s.length) c

def stripPrefix (nonce : List Char) : List Char :=
  if ['0', 'x'].isPrefixOf nonce then nonce.drop 2 else nonce

/-- The nonce with the extranonce in front when it is short. -/
def fullNonce (context : KaspaWorkerContext) (nonce : List Char) : List Char :=
  let nonce := stripPrefix nonce
  let width := nonceLength - context.extraNonce1.length
  if nonce.length ≤ width then padRight width.toNat '0' context.extraNonce1 ++ nonce else nonce

section completion

variable {context : KaspaWorkerContext} {nonce : List Char}

theorem fullNonce_of_le
    (h : (stripPrefix nonce).length + context.extraNonce1.length ≤ 16) :
    fullNonce context nonce =
      padRight (16 - context.extraNonce1.length) '0' context.extraNonce1 ++ stripPrefix nonce := by
  have hwidth : (nonceLength - context.extraNonce1.length).toNat =
      16 - context.extraNonce1.length := by
    rw [nonceLength]
    omega
  rw [fullNonce, hwidth, if_pos]
  rw [nonceLength]
  omega

theorem fullNonce_of_lt
    (h : 16 < (stripPrefix nonce).length + context.extraNonce1.length) :
    fullNonce context nonce = stripPrefix nonce := by
  rw [fullNonce, if_neg]
  rw [nonceLength]
  omega

end completion

/-- `TryAdd` on the registry, which ignores the case. -/
def registerSubmit (state : JobState) (nonce : List Char) : Option JobState :=
  if state.submissions.contains (ignoringCase nonce) then none
  else some { state with submissions := ignoringCase nonce :: state.submissions }

namespace KaspaJob

variable (job : KaspaJob)

/-- The share of the nonce that the header has when it is hashed. -/
def hashShare (context : KaspaWorkerContext) (headerNonce : Nat) :
    Except SubmitException MinedShare :=
  let hash := job.hashCoinbase headerNonce
  let isBlockCandidate := decide (hash ≤ job.blockTargetValue)
  match stratumDifficulty context.toWorkerDifficulty isBlockCandidate (job.isLow hash) with
  | none => .error (.stratum .lowDifficultyShare s!"low difficulty share ({job.shareDiff hash})")
  | some _ => .ok {
      blockHeight := job.daaScore
      networkDifficulty := some job.difficulty
      difficulty := context.difficulty / job.shareMultiplier
      isBlockCandidate
      blockHash := if isBlockCandidate then some (job.hashHeader headerNonce) else none }

def processShareInternal (context : KaspaWorkerContext) (nonce : List Char) (state : JobState) :
    JobState × Except SubmitException MinedShare :=
  match convertToUInt64 nonce with
  | .error exception => (state, .error (.parse exception))
  | .ok headerNonce =>
      let state := { state with headerNonce }
      (state, job.hashShare context state.headerNonce)

def processShare (context : KaspaWorkerContext) (nonce : List Char) (state : JobState) :
    JobState × Except SubmitException MinedShare :=
  if nonce = [] then (state, .error .argument)
  else
    let nonce := fullNonce context nonce
    match registerSubmit state nonce with
    | none => (state, .error (.stratum .duplicateShare "duplicate share"))
    | some state => job.processShareInternal context nonce state

end KaspaJob

end Miningcore.Kaspa

/-!
# Nonces credited twice

The registry of a Kaspa job keeps the text of a nonce and the header its value.
A value has one text of sixteen digits up to the case, and many longer ones.
-/

namespace Miningcore.Kaspa

open Foundation

structure Submission where
  context : KaspaWorkerContext
  nonce : List Char

namespace KaspaJob

variable (job : KaspaJob)

/-- The nonces in the hashed headers of the accepted shares, in the order of the submissions. -/
def acceptedNonces : List Submission → JobState → List Nat
  | [], _ => []
  | submission :: rest, state =>
      match job.processShare submission.context submission.nonce state with
      | (state, .ok _) => state.headerNonce :: acceptedNonces rest state
      | (state, .error _) => acceptedNonces rest state

end KaspaJob

namespace Submission

variable (submission : Submission)

def fullNonce : List Char := Kaspa.fullNonce submission.context submission.nonce

/-- The completed nonce has one digit for every four bits. -/
def IsFullLength : Prop :=
  submission.fullNonce.length = 16 ∧ ∀ c ∈ submission.fullNonce, isHexDigit c

instance : Decidable submission.IsFullLength :=
  haveI : Decidable (∀ c ∈ submission.fullNonce, isHexDigit c) := List.decidableBAll _ _
  inferInstanceAs (Decidable (_ ∧ _))

/-- What is registered. -/
def key : Option (List Char) :=
  if submission.nonce = [] then none else some (ignoringCase submission.fullNonce)

end Submission

/-- The nonce of a submission that is good enough for a share. -/
def KaspaJob.goodNonce (job : KaspaJob) (submission : Submission) : Option Nat :=
  match convertToUInt64 submission.fullNonce with
  | .error _ => none
  | .ok n => if (job.hashShare submission.context n).toOption.isSome then some n else none

variable {job : KaspaJob} {submission : Submission}

theorem acceptedNonces_eq_creditedValues (submissions : List Submission) (state : JobState) :
    job.acceptedNonces submissions state =
      creditedValues Submission.key job.goodNonce submissions state.submissions := by
  induction submissions generalizing state with
  | nil => rfl
  | cons submission rest ih =>
      rw [KaspaJob.acceptedNonces, creditedValues, KaspaJob.processShare, Submission.key]
      by_cases hempty : submission.nonce = []
      · simp only [hempty, if_true, ih]
      · simp only [hempty, if_false, registerSubmit, List.contains_iff_mem, Submission.fullNonce]
        by_cases hmem : ignoringCase (fullNonce submission.context submission.nonce) ∈
            state.submissions
        · simp only [hmem, if_true, ih]
        · simp only [hmem, if_false, KaspaJob.processShareInternal, KaspaJob.goodNonce,
            Submission.fullNonce]
          cases convertToUInt64 (fullNonce submission.context submission.nonce) with
          | error exception => simp [ih]
          | ok n =>
              cases hshare : job.hashShare submission.context n with
              | error exception => simp [ih, hshare, Except.toOption]
              | ok share => simp [ih, hshare, Except.toOption]

theorem convertToUInt64_of_isFullLength (h : submission.IsFullLength) :
    convertToUInt64 submission.fullNonce = .ok (hexValue submission.fullNonce) := by
  obtain ⟨hlength, hdigits⟩ := h
  apply convertToUInt64_of_isHexDigit _ hdigits
  · rw [hlength]
    decide
  · rw [← List.length_pos_iff, hlength]
    decide

theorem goodNonce_eq_some_iff {n : Nat} : job.goodNonce submission = some n ↔
    convertToUInt64 submission.fullNonce = .ok n ∧
      (job.hashShare submission.context n).toOption.isSome := by
  rw [KaspaJob.goodNonce]
  split
  · rename_i hconvert
    simp [hconvert]
  · rename_i n' hconvert
    rw [hconvert, Except.ok.injEq]
    split
    · rename_i hshare
      rw [Option.some.injEq]
      exact ⟨fun h => ⟨h, h ▸ hshare⟩, fun h => h.1⟩
    · rename_i hshare
      exact iff_of_false (by simp) fun h => hshare (h.1 ▸ h.2)

/-- No nonce is credited twice in a run whose completed nonces all have sixteen digits. -/
theorem nodup_acceptedNonces_of_fullLength (job : KaspaJob) (submissions : List Submission)
    (h : ∀ submission ∈ submissions, submission.IsFullLength) :
    (job.acceptedNonces submissions {}).Nodup := by
  rw [acceptedNonces_eq_creditedValues]
  apply nodup_creditedValues
  intro first hfirst second hsecond key key' n hkey hkey' hvalue hvalue'
  obtain ⟨hn, -⟩ := goodNonce_eq_some_iff.mp hvalue
  obtain ⟨hn', -⟩ := goodNonce_eq_some_iff.mp hvalue'
  have hfull := h first hfirst
  have hfull' := h second hsecond
  rw [convertToUInt64_of_isFullLength hfull, Except.ok.injEq] at hn
  rw [convertToUInt64_of_isFullLength hfull', Except.ok.injEq] at hn'
  have hsame := ignoringCase_eq_of_hexValue_eq hfull.2 hfull'.2 (hfull.1.trans hfull'.1.symm)
    (hn.trans hn'.symm)
  rw [Submission.key] at hkey hkey'
  split at hkey
  · cases hkey
  · split at hkey'
    · cases hkey'
    · rw [← Option.some.inj hkey, ← Option.some.inj hkey', hsame]

/-- The text of sixteen digits of a submission's nonce. -/
def Submission.fullLength (submission : Submission) (n : Nat) : Submission :=
  ⟨submission.context, hexText 16 n⟩

theorem context_fullLength (submission : Submission) (n : Nat) :
    (submission.fullLength n).context = submission.context := rfl

theorem fullNonce_fullLength (hextra : submission.context.extraNonce1 ≠ []) (n : Nat) :
    (submission.fullLength n).fullNonce = hexText 16 n := by
  have hstrip : stripPrefix (hexText 16 n) = hexText 16 n := by
    rw [stripPrefix, if_neg (by simp [not_isPrefixOf_of_isHexDigit (isHexDigit_hexText 16 n)])]
  have hlength : 0 < submission.context.extraNonce1.length := List.length_pos_iff.mpr hextra
  have hlong :
      16 < (stripPrefix (hexText 16 n)).length + submission.context.extraNonce1.length := by
    rw [hstrip, length_hexText]
    omega
  rw [Submission.fullNonce, Submission.fullLength, fullNonce_of_lt hlong, hstrip]

/-- Any other spelling of a good nonce is credited besides the one of sixteen digits. -/
theorem acceptedNonces_fullLength (hextra : submission.context.extraNonce1 ≠ [])
    (hempty : submission.nonce ≠ []) {n : Nat} (hgood : job.goodNonce submission = some n)
    (h : ¬ submission.IsFullLength) :
    job.acceptedNonces [submission.fullLength n, submission] {} = [n, n] := by
  obtain ⟨hconvert, hshare⟩ := goodNonce_eq_some_iff.mp hgood
  have hn : n < 16 ^ 16 := convertToUInt64_lt hconvert
  have htext := fullNonce_fullLength hextra n
  have hfull : (submission.fullLength n).IsFullLength := by
    rw [Submission.IsFullLength, htext]
    exact ⟨length_hexText 16 n, isHexDigit_hexText 16 n⟩
  have hne : ignoringCase submission.fullNonce ≠ ignoringCase (hexText 16 n) := by
    intro hsame
    apply h
    rw [Submission.IsFullLength, length_eq_of_ignoringCase_eq hsame, length_hexText]
    exact ⟨rfl, isHexDigit_of_ignoringCase_eq (isHexDigit_hexText 16 n) hsame⟩
  have hkey : (submission.fullLength n).key = some (ignoringCase (hexText 16 n)) := by
    have hnonempty : (submission.fullLength n).nonce ≠ [] := by
      rw [Submission.fullLength, ← List.length_pos_iff, length_hexText]
      decide
    rw [Submission.key, if_neg hnonempty, htext]
  have hkey' : submission.key = some (ignoringCase submission.fullNonce) := by
    rw [Submission.key, if_neg hempty]
  have hgood' : job.goodNonce (submission.fullLength n) = some n := by
    rw [goodNonce_eq_some_iff, convertToUInt64_of_isFullLength hfull, htext,
      hexValue_hexText 16 n hn, context_fullLength]
    exact ⟨rfl, hshare⟩
  rw [acceptedNonces_eq_creditedValues]
  exact creditedValues_pair hkey hkey' hne hgood' hgood

namespace LeadingZeros

/-- A job that takes every nonce for a share. -/
def easyJob : KaspaJob where
  daaScore := 1
  difficulty := 1
  shareMultiplier := 1
  blockTargetValue := 0
  hashCoinbase _ := 1
  hashHeader _ := ""
  isLow _ _ := false
  shareDiff _ := ""

def context : KaspaWorkerContext := { difficulty := 1, extraNonce1 := "1001".toList }

end LeadingZeros

/-- The nonce 1 in sixteen and in seventeen digits. -/
theorem not_nodup_leadingZeros : ¬ (LeadingZeros.easyJob.acceptedNonces
    [⟨LeadingZeros.context, "0000000000000001".toList⟩,
      ⟨LeadingZeros.context, "00000000000000001".toList⟩] {}).Nodup := by
  decide +kernel

theorem nodup_fullLength_cases : (LeadingZeros.easyJob.acceptedNonces
    [⟨LeadingZeros.context, "0xABCDEF0000000001".toList⟩,
      ⟨LeadingZeros.context, "abcdef0000000001".toList⟩,
      ⟨LeadingZeros.context, "abcdef0000000002".toList⟩] {}).Nodup :=
  nodup_acceptedNonces_of_fullLength _ _ (by decide +kernel)

end Miningcore.Kaspa
