import Miningcore.Blockchain.Xelis.XelisJob
import Miningcore.Foundation.Interleaving

/-!
# Headers that Xelis submissions share

The header of a winning share goes into the header object of the job. What is sent to the
daemon is read from that object again, when other submissions may have written theirs.

## Implementation notes

A submission takes three steps: it is registered and hashed, it writes its header if it is
a block candidate, and it sends the header of the job. It is referred to by a number.
-/

namespace Miningcore.Xelis

open Foundation

/-- What the submissions of a job share. The code does not keep which of them have written. -/
structure SharedJob where
  /-- The template of the header object. -/
  template : List Char
  submissions : List (List Char) := []
  written : List ℕ := []

/-- How far a submission is. -/
inductive Progress where
  | received
  | refused (exception : SubmitException)
  | accepted (share : MinedShare)
  | winning (share : MinedShare) (header : List Char)
  | candidate (share : MinedShare)
  | sent (share : MinedShare) (blockTemplate : List Char)
deriving DecidableEq

namespace XelisJob

variable (job : XelisJob)

/-- A step of `SubmitShareAsync`. -/
def submitStep (submission : Submission) (number : ℕ) (shared : SharedJob) :
    Progress → SharedJob × Progress
  | .received =>
      match job.processShare submission shared.submissions with
      | (submissions, .error exception) => ({ shared with submissions }, .refused exception)
      | (submissions, .ok (share, none)) => ({ shared with submissions }, .accepted share)
      | (submissions, .ok (share, some header)) =>
          ({ shared with submissions }, .winning share header)
  | .winning share header =>
      ({ shared with template := header, written := shared.written ++ [number] },
        .candidate share)
  | .candidate share => (shared, .sent share shared.template)
  | progress => (shared, progress)

/-- The bytes of a submission that are hashed. -/
def coinbaseOf (submission : Submission) : List UInt8 :=
  job.serializeCoinbase (hexToByteArray submission.context.extraNonce1)
    (hexToByteArray submission.nonce)

/-- The header with the extranonce and the nonce of a submission. -/
def headerOf (submission : Submission) : List Char :=
  toHexString (job.serializeHeader (hexToByteArray submission.context.extraNonce1)
    (hexToByteArray submission.nonce))

/-- A header is that of a submission whose hash has met the target of the block. -/
def Wins (submission : Submission) (header : List Char) : Prop :=
  job.isBlockCandidate (job.xelisHash (job.coinbaseOf submission)) = true ∧
    header = job.headerOf submission

variable {job}

/-- A share comes with a header if and only if its hash meets the target. -/
theorem wins_of_processShare {submission : Submission} {submissions registered : List (List Char)}
    {share : MinedShare} {header : List Char}
    (h : job.processShare submission submissions = (registered, .ok (share, some header))) :
    job.Wins submission header := by
  rw [processShare] at h
  split at h
  · cases h
  · split at h
    · cases h
    · split at h
      · cases h
      · rw [Prod.mk.injEq, processShareInternal] at h
        obtain ⟨-, h⟩ := h
        split at h
        · cases h
        · rw [Except.ok.injEq, Prod.mk.injEq] at h
          obtain ⟨-, h⟩ := h
          split at h
          · rename_i hcandidate
            exact ⟨hcandidate, (Option.some.inj h).symm⟩
          · cases h

end XelisJob

section runs

variable (job : XelisJob) (submissions : ℕ → Submission) (template : List Char)

/-- The job after the steps of a schedule. -/
def run (schedule : List ℕ) : Interleaved ℕ SharedJob Progress :=
  Interleaved.run (fun number => job.submitStep (submissions number) number)
    ⟨{ template }, fun _ => .received⟩ schedule

/-- A candidate that is sent finds the header there that was written last, and it is as good as its
own. -/
def LastWriteIsOwn (number : ℕ) (state : Interleaved ℕ SharedJob Progress) : Prop :=
  ∀ share, state.threads number = .candidate share →
    ∀ last ∈ state.store.written.getLast?,
      job.headerOf (submissions last) = job.headerOf (submissions number)

def SendsOwnHeader (schedule : List ℕ) (number : ℕ) : Prop :=
  Interleaved.BeforeSteps (fun number => job.submitStep (submissions number) number)
    (LastWriteIsOwn job submissions number) ⟨{ template }, fun _ => .received⟩ schedule number

/-- The header object holds what was written last. -/
structure IsShared (state : Interleaved ℕ SharedJob Progress) : Prop where
  template_eq : ∀ last ∈ state.store.written.getLast?,
    state.store.template = job.headerOf (submissions last)
  winning : ∀ number share header, state.threads number = .winning share header →
    job.Wins (submissions number) header
  candidate : ∀ number share, state.threads number = .candidate share →
    state.store.written ≠ [] ∧
      job.isBlockCandidate (job.xelisHash (job.coinbaseOf (submissions number))) = true

variable {job submissions template}

/-- A step that leaves the header alone puts the submission into another state. -/
theorem IsShared.step_of_kept {state : Interleaved ℕ SharedJob Progress} {number : ℕ}
    (h : IsShared job submissions state) {store : SharedJob} {progress : Progress}
    (hact : job.submitStep (submissions number) number state.store (state.threads number) =
      (store, progress))
    (htemplate : store.template = state.store.template)
    (hwritten : store.written = state.store.written)
    (hwinning : ∀ share header, progress = .winning share header →
      job.Wins (submissions number) header)
    (hcandidate : ∀ share, progress = .candidate share →
      state.threads number = .candidate share) :
    IsShared job submissions
      (state.step (fun number => job.submitStep (submissions number) number) number) := by
  constructor
  · rw [Interleaved.store_step, hact, htemplate, hwritten]
    exact h.template_eq
  · intro other share header hother
    by_cases hsame : other = number
    · subst hsame
      rw [Interleaved.threads_step_self, hact] at hother
      exact hwinning share header hother
    · rw [Interleaved.threads_step_of_ne hsame] at hother
      exact h.winning other share header hother
  · intro other share hother
    rw [Interleaved.store_step, hact, hwritten]
    by_cases hsame : other = number
    · subst hsame
      rw [Interleaved.threads_step_self, hact] at hother
      exact h.candidate other share (hcandidate share hother)
    · rw [Interleaved.threads_step_of_ne hsame] at hother
      exact h.candidate other share hother

/-- A submission that has met the target writes its header. -/
theorem IsShared.step_of_winning {state : Interleaved ℕ SharedJob Progress} {number : ℕ}
    (h : IsShared job submissions state) {share : MinedShare} {header : List Char}
    (hprogress : state.threads number = .winning share header) :
    IsShared job submissions
      (state.step (fun number => job.submitStep (submissions number) number) number) := by
  have hact : job.submitStep (submissions number) number state.store (state.threads number) =
      ({ state.store with
          template := header
          written := state.store.written ++ [number] }, .candidate share) := by
    rw [hprogress]
    rfl
  have hwins := h.winning number share header hprogress
  constructor
  · rw [Interleaved.store_step, hact]
    dsimp only
    rw [List.getLast?_concat]
    rintro last ⟨⟩
    exact hwins.2
  · intro other share' header' hother
    by_cases hsame : other = number
    · subst hsame
      rw [Interleaved.threads_step_self, hact] at hother
      cases hother
    · rw [Interleaved.threads_step_of_ne hsame] at hother
      exact h.winning other share' header' hother
  · intro other share' hother
    rw [Interleaved.store_step, hact]
    refine ⟨by simp, ?_⟩
    by_cases hsame : other = number
    · rw [hsame]
      exact hwins.1
    · rw [Interleaved.threads_step_of_ne hsame] at hother
      exact (h.candidate other share' hother).2

theorem IsShared.step {state : Interleaved ℕ SharedJob Progress}
    (h : IsShared job submissions state) (number : ℕ) :
    IsShared job submissions
      (state.step (fun number => job.submitStep (submissions number) number) number) := by
  cases hprogress : state.threads number with
  | received =>
      have hact : job.submitStep (submissions number) number state.store .received =
          match job.processShare (submissions number) state.store.submissions with
          | (submissions, .error exception) =>
              ({ state.store with submissions }, .refused exception)
          | (submissions, .ok (share, none)) => ({ state.store with submissions }, .accepted share)
          | (submissions, .ok (share, some header)) =>
              ({ state.store with submissions }, .winning share header) := rfl
      rw [← hprogress] at hact
      split at hact
      · apply h.step_of_kept hact rfl rfl
        · rintro share header ⟨⟩
        · rintro share ⟨⟩
      · apply h.step_of_kept hact rfl rfl
        · rintro share header ⟨⟩
        · rintro share ⟨⟩
      · rename_i registered share header hprocess
        apply h.step_of_kept hact rfl rfl
        · rintro share' header' ⟨⟩
          exact XelisJob.wins_of_processShare hprocess
        · rintro share ⟨⟩
  | winning share header => exact h.step_of_winning hprogress
  | candidate share =>
      have hact : job.submitStep (submissions number) number state.store (state.threads number) =
          (state.store, .sent share state.store.template) := by
        rw [hprogress]
        rfl
      apply h.step_of_kept hact rfl rfl
      · rintro share header ⟨⟩
      · rintro share ⟨⟩
  | refused | accepted | sent =>
      -- a submission that has come to its end stays as it is
      have hact : job.submitStep (submissions number) number state.store (state.threads number) =
          (state.store, state.threads number) := by
        rw [hprogress]
        rfl
      apply h.step_of_kept hact rfl rfl
      · intro share header heq
        exact h.winning number share header heq
      · intro share heq
        exact heq

theorem isShared_run (schedule : List ℕ) :
    IsShared job submissions (run job submissions template schedule) := by
  apply Interleaved.run_invariant
  · intro state number h
    exact h.step number
  · constructor
    · intro last hlast
      cases hlast
    · intro number share header heq
      cases heq
    · intro number share heq
      cases heq

/-- What has come of a submission, and whether it has sent its own header. -/
def IsSent (job : XelisJob) (submissions : ℕ → Submission) (template : List Char)
    (schedule : List ℕ) (number : ℕ) : Progress → Prop
  | .sent _ header => job.Wins (submissions number) header ↔
      SendsOwnHeader job submissions template schedule number
  | _ => SendsOwnHeader job submissions template schedule number

theorem isSent_run (schedule : List ℕ) (number : ℕ) :
    IsSent job submissions template schedule number
      ((run job submissions template schedule).threads number) := by
  apply Interleaved.thread_induction
  · exact Interleaved.beforeSteps_nil
  · intro schedule other progress hother ih
    have hsends : SendsOwnHeader job submissions template (schedule ++ [other]) number ↔
        SendsOwnHeader job submissions template schedule number :=
      Interleaved.beforeSteps_concat_of_ne hother
    cases progress with
    | sent share header => exact ih.trans hsends.symm
    | received => exact hsends.mpr ih
    | refused exception => exact hsends.mpr ih
    | accepted share => exact hsends.mpr ih
    | winning share header => exact hsends.mpr ih
    | candidate share => exact hsends.mpr ih
  · intro schedule ih
    have hsends : SendsOwnHeader job submissions template (schedule ++ [number]) number ↔
        SendsOwnHeader job submissions template schedule number ∧
          LastWriteIsOwn job submissions number (run job submissions template schedule) :=
      Interleaved.beforeSteps_concat_self
    have hshared : IsShared job submissions (run job submissions template schedule) :=
      isShared_run schedule
    change IsSent job submissions template schedule number
      ((run job submissions template schedule).threads number) at ih
    change IsSent job submissions template (schedule ++ [number]) number
      (job.submitStep (submissions number) number
        (run job submissions template schedule).store
        ((run job submissions template schedule).threads number)).2
    rw [LastWriteIsOwn] at hsends
    have htemplate := hshared.template_eq
    have hcandidate := hshared.candidate number
    generalize (run job submissions template schedule).store = shared at *
    generalize (run job submissions template schedule).threads number = progress at *
    have hidle (hnot : ∀ share, progress ≠ .candidate share) :
        SendsOwnHeader job submissions template (schedule ++ [number]) number ↔
          SendsOwnHeader job submissions template schedule number :=
      hsends.trans (and_iff_left fun share heq => absurd heq (hnot share))
    cases progress with
    | received =>
        have hown := (hidle fun _ heq => by cases heq).mpr ih
        rw [XelisJob.submitStep]
        split
        · exact hown
        · exact hown
        · exact hown
    | refused exception => exact (hidle fun _ heq => by cases heq).mpr ih
    | accepted share => exact (hidle fun _ heq => by cases heq).mpr ih
    | winning share header => exact (hidle fun _ heq => by cases heq).mpr ih
    | sent share header => exact ih.trans (hidle fun _ heq => by cases heq).symm
    | candidate share =>
        obtain ⟨hwritten, hmeets⟩ := hcandidate share rfl
        obtain ⟨last, hlast⟩ := Option.ne_none_iff_exists'.mp
          (mt List.getLast?_eq_none_iff.mp hwritten)
        rw [XelisJob.submitStep, IsSent, hsends, XelisJob.Wins, htemplate last hlast,
          and_iff_right hmeets]
        constructor
        · intro hsame
          refine ⟨ih, fun _ _ other hother => ?_⟩
          rw [hlast, Option.mem_def, Option.some.injEq] at hother
          rw [← hother]
          exact hsame
        · rintro ⟨-, hsame⟩
          exact hsame share rfl last hlast

/-- Every candidate sends the header that won in just the runs in which the header that was written
last before it sends is as its own. -/
theorem sends_winning_header_iff (job : XelisJob) (submissions : ℕ → Submission)
    (template : List Char) (schedule : List ℕ) :
    (∀ number share header,
      (run job submissions template schedule).threads number = .sent share header →
        job.Wins (submissions number) header) ↔
      ∀ number, SendsOwnHeader job submissions template schedule number := by
  refine forall_congr' fun number => ?_
  have hsent : IsSent job submissions template schedule number
      ((run job submissions template schedule).threads number) := isSent_run schedule number
  generalize (run job submissions template schedule).threads number = progress at *
  cases progress with
  | sent share header =>
      refine Iff.trans ?_ hsent
      constructor
      · intro h
        exact h share header rfl
      · intro h share' header' heq
        cases heq
        exact h
  | received => exact iff_of_true (fun _ _ heq => by cases heq) hsent
  | refused exception => exact iff_of_true (fun _ _ heq => by cases heq) hsent
  | accepted share => exact iff_of_true (fun _ _ heq => by cases heq) hsent
  | winning share header => exact iff_of_true (fun _ _ heq => by cases heq) hsent
  | candidate share => exact iff_of_true (fun _ _ heq => by cases heq) hsent

end runs

namespace TwoWinners

/-- A job whose target every hash meets. -/
def job : XelisJob where
  topoHeight := 1
  difficulty := 1
  prevHashBytes := []
  versionBytes := [0]
  heightBytes := [1]
  nTimeBytes := [2]
  tipsCountBytes := [0]
  tipsBytes := none
  transactionsCountBytes := [0]
  transactionsBytes := none
  minerPublicKeyBytes := [3]
  xelisHash := id
  blake3Hash := id
  isBlockCandidate _ := true
  isLow _ _ := false
  shareDiff _ := ""

/-- Two nonces of one worker. -/
def submissions (number : ℕ) : Submission where
  context := { difficulty := 1, extraNonce1 := [], isHexPairs_extraNonce1 := isHexPairs_nil }
  nonce := if number = 0 then List.replicate 16 'a' else List.replicate 16 'b'

end TwoWinners

open TwoWinners in
/-- The second writes its header before the first has sent. -/
theorem sends_other_header :
    ∃ share, (run job submissions [] [0, 0, 1, 1, 0]).threads 0 =
        .sent share (job.headerOf (submissions 1)) ∧
      ¬ job.Wins (submissions 0) (job.headerOf (submissions 1)) := by
  refine ⟨_, rfl, ?_⟩
  rintro ⟨-, hsame⟩
  exact absurd hsame (by decide +kernel)

end Miningcore.Xelis
