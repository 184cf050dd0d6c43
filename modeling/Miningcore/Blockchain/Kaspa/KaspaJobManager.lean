import Mathlib.Logic.Function.Basic
import Miningcore.Blockchain.Kaspa.KaspaJob
import Mathlib.Data.List.Induction

/-!
# Submissions side by side

The connections of a Kaspa pool submit to one job. A submission is registered,
writes its nonce into the header, hashes the header and, when the share is a
block candidate, sends the block template to the node and waits for the reply.
Other submissions may take any of their steps in between.
-/

namespace Miningcore.Kaspa

open Foundation

/-- How far a submission has come. -/
inductive Phase where
  | received (context : KaspaWorkerContext) (nonce : List Char)
  | registered (context : KaspaWorkerContext) (nonce : List Char)
  | written (context : KaspaWorkerContext)
  /-- A block candidate and the nonce that was hashed. -/
  | candidate (share : MinedShare) (hashedNonce : Nat)
  | submitted (share : MinedShare)
  | finished (result : Except SubmitException MinedShare)

/-- A block template on its way to the node. -/
structure SentBlock (ι : Type*) where
  submission : ι
  hashedNonce : Nat
  sentNonce : Nat
deriving DecidableEq

structure Machine (ι : Type*) where
  state : JobState := {}
  phase : ι → Phase
  sentBlocks : List (SentBlock ι) := []

namespace Machine

variable {ι : Type*} [DecidableEq ι]

/-- One submission is in another phase. -/
def enter (machine : Machine ι) (i : ι) (phase : Phase) : Machine ι :=
  { machine with phase := Function.update machine.phase i phase }

@[simp] theorem state_enter (machine : Machine ι) (i : ι) (phase : Phase) :
    (machine.enter i phase).state = machine.state := rfl

@[simp] theorem sentBlocks_enter (machine : Machine ι) (i : ι) (phase : Phase) :
    (machine.enter i phase).sentBlocks = machine.sentBlocks := rfl

@[simp] theorem phase_enter_self (machine : Machine ι) (i : ι) (phase : Phase) :
    (machine.enter i phase).phase i = phase := Function.update_self ..

@[simp] theorem phase_enter_of_ne (machine : Machine ι) {i j : ι} (h : j ≠ i) (phase : Phase) :
    (machine.enter i phase).phase j = machine.phase j := Function.update_of_ne h ..

end Machine

/-- A job, what the connections submit to it and whether the node accepts their blocks. -/
structure KaspaJobManager (ι : Type*) where
  job : KaspaJob
  submissions : ι → KaspaWorkerContext × List Char
  accepts : ι → Bool

/-- What becomes of a submission whose header has a nonce. -/
def KaspaJob.hashedPhase (job : KaspaJob) (context : KaspaWorkerContext) (headerNonce : Nat) :
    Phase :=
  match job.hashShare context headerNonce with
  | .error exception => .finished (.error exception)
  | .ok share =>
      if share.isBlockCandidate then .candidate share headerNonce else .finished (.ok share)

namespace KaspaJobManager

variable {ι : Type*} [DecidableEq ι] (manager : KaspaJobManager ι)

/-- The share when the node has answered. -/
def answeredShare (i : ι) (share : MinedShare) : MinedShare :=
  { share with
    isBlockCandidate := manager.accepts i
    transactionConfirmationData :=
      if manager.accepts i then some (String.ofList (manager.submissions i).2) else none }

/-- The next step of a submission. -/
def step (machine : Machine ι) (i : ι) : Machine ι :=
  match machine.phase i with
  | .received context nonce =>
      if nonce = [] then machine.enter i (.finished (.error .argument))
      else
        let nonce := fullNonce context nonce
        match registerSubmit machine.state nonce with
        | none =>
            machine.enter i (.finished (.error (.stratum .duplicateShare "duplicate share")))
        | some state => { machine with state }.enter i (.registered context nonce)
  | .registered context nonce =>
      match convertToUInt64 nonce with
      | .error exception => machine.enter i (.finished (.error (.parse exception)))
      | .ok headerNonce =>
          let state := { machine.state with headerNonce }
          { machine with state }.enter i (.written context)
  | .written context =>
      machine.enter i (manager.job.hashedPhase context machine.state.headerNonce)
  | .candidate share hashedNonce =>
      let block : SentBlock ι := ⟨i, hashedNonce, machine.state.headerNonce⟩
      { machine with sentBlocks := machine.sentBlocks ++ [block] }.enter i (.submitted share)
  | .submitted share => machine.enter i (.finished (.ok (manager.answeredShare i share)))
  | .finished _ => machine

def run (machine : Machine ι) (schedule : List ι) : Machine ι :=
  schedule.foldl manager.step machine

/-- The submissions before any of them is looked at. -/
def start : Machine ι where
  phase i := .received (manager.submissions i).1 (manager.submissions i).2

/-- A submission that nothing comes between does what `processShare` does. -/
theorem processShare_eq_run (context : KaspaWorkerContext) (nonce : List Char)
    (machine : Machine ι) (i : ι) (h : machine.phase i = .received context nonce) :
    (manager.run machine [i, i, i]).state =
        (manager.job.processShare context nonce machine.state).1 ∧
      (manager.run machine [i, i, i]).phase i =
        match manager.job.processShare context nonce machine.state with
        | (_, .error exception) => Phase.finished (.error exception)
        | (state, .ok share) =>
            if share.isBlockCandidate then Phase.candidate share state.headerNonce
            else Phase.finished (.ok share) := by
  simp only [run, List.foldl_cons, List.foldl_nil, KaspaJob.processShare]
  by_cases hempty : nonce = []
  · simp [step, h, hempty]
  · cases hregister : registerSubmit machine.state (fullNonce context nonce) with
    | none => simp [step, h, hempty, hregister]
    | some state =>
        simp only [hempty, if_false, KaspaJob.processShareInternal]
        cases hconvert : convertToUInt64 (fullNonce context nonce) with
        | error exception => simp [step, h, hempty, hregister, hconvert]
        | ok headerNonce =>
            cases hshare : manager.job.hashShare context headerNonce with
            | error exception =>
                simp [step, h, hempty, hregister, hconvert, KaspaJob.hashedPhase, hshare]
            | ok share =>
                simp [step, h, hempty, hregister, hconvert, KaspaJob.hashedPhase, hshare]

end KaspaJobManager

/-!
## The nonce of a submitted block

All submissions write into the header of one block template. A candidate is
hashed with one nonce and the template is sent later, with the nonce written
last. The two agree unless another submission wrote in between.
-/

namespace KaspaJobManager

variable {ι : Type*} [DecidableEq ι] (manager : KaspaJobManager ι)

/-- The nonce that a step writes. -/
def writtenNonce (machine : Machine ι) (i : ι) : Option Nat :=
  match machine.phase i with
  | .registered _ nonce => (convertToUInt64 nonce).toOption
  | _ => none

/-- The nonces written along a schedule. -/
def writtenNonces (machine : Machine ι) : List ι → List Nat
  | [] => []
  | i :: schedule =>
      (writtenNonce machine i).toList ++
        writtenNonces (manager.step machine i) schedule

/-- A step that hashes the header and finds a block. -/
def FindsBlock (machine : Machine ι) (i : ι) : Prop :=
  ∃ context share, machine.phase i = .written context ∧
    manager.job.hashedPhase context machine.state.headerNonce =
      .candidate share machine.state.headerNonce

variable {manager} {machine : Machine ι} {schedule : List ι}

theorem headerNonce_step (machine : Machine ι) (i : ι) :
    (manager.step machine i).state.headerNonce =
      (writtenNonce machine i).getD machine.state.headerNonce := by
  cases hphase : machine.phase i with
  | received context nonce =>
      simp only [step, writtenNonce, hphase, Option.getD_none]
      split
      · rfl
      · simp only [registerSubmit]
        split_ifs <;> rfl
  | registered context nonce =>
      simp only [step, writtenNonce, hphase]
      cases convertToUInt64 nonce <;> rfl
  | written context => simp [step, writtenNonce, hphase]
  | candidate share hashedNonce => simp [step, writtenNonce, hphase]
  | submitted share => simp [step, writtenNonce, hphase]
  | finished result => simp [step, writtenNonce, hphase]

/-- The header has the nonce that was written last. -/
theorem headerNonce_run (machine : Machine ι) (schedule : List ι) :
    (manager.run machine schedule).state.headerNonce =
      (manager.writtenNonces machine schedule).getLast?.getD
        machine.state.headerNonce := by
  induction schedule generalizing machine with
  | nil => rfl
  | cons i schedule ih =>
      have hrun : manager.run machine (i :: schedule) =
          manager.run (manager.step machine i) schedule := rfl
      rw [hrun, ih, headerNonce_step, writtenNonces, List.getLast?_append]
      cases (manager.writtenNonces (manager.step machine i)
        schedule).getLast? with
      | some n => rfl
      | none => cases writtenNonce machine i <;> rfl

/-- A step leaves the other submissions where they are. -/
theorem phase_step_of_ne {i j : ι} (h : j ≠ i) (machine : Machine ι) :
    (manager.step machine i).phase j = machine.phase j := by
  cases hphase : machine.phase i with
  | received context nonce =>
      simp only [step, hphase]
      split
      · exact Machine.phase_enter_of_ne _ h _
      · split <;> exact Machine.phase_enter_of_ne _ h _
  | registered context nonce =>
      simp only [step, hphase]
      split <;> exact Machine.phase_enter_of_ne _ h _
  | written context => simp [step, hphase, h]
  | candidate share hashedNonce => simp [step, hphase, h]
  | submitted share => simp [step, hphase, h]
  | finished result => simp [step, hphase]

theorem run_append (machine : Machine ι) (before after : List ι) :
    manager.run machine (before ++ after) =
      manager.run (manager.run machine before) after := by
  rw [run, List.foldl_append, run, run]

theorem run_concat (machine : Machine ι) (schedule : List ι) (i : ι) :
    manager.run machine (schedule ++ [i]) =
      manager.step (manager.run machine schedule) i := by
  rw [run_append]
  rfl

theorem phase_run_of_notMem {j : ι} (h : j ∉ schedule) (machine : Machine ι) :
    (manager.run machine schedule).phase j = machine.phase j := by
  induction schedule generalizing machine with
  | nil => rfl
  | cons i schedule ih =>
      rw [List.mem_cons, not_or] at h
      have hrun : manager.run machine (i :: schedule) =
          manager.run (manager.step machine i) schedule := rfl
      rw [hrun, ih h.2, phase_step_of_ne h.1]

theorem hashedPhase_eq_candidate {job : KaspaJob} {context : KaspaWorkerContext}
    {headerNonce hashedNonce : Nat} {share : MinedShare}
    (h : job.hashedPhase context headerNonce = .candidate share hashedNonce) :
    hashedNonce = headerNonce := by
  rw [KaspaJob.hashedPhase] at h
  split at h
  · cases h
  · split at h
    · cases h
      rfl
    · cases h

/-- Only hashing makes a candidate. -/
theorem findsBlock_of_candidate {i : ι} {share : MinedShare} {hashedNonce : Nat}
    (h : (manager.step machine i).phase i = .candidate share hashedNonce) :
    manager.FindsBlock machine i ∧ hashedNonce = machine.state.headerNonce := by
  cases hphase : machine.phase i with
  | received context nonce =>
      simp only [step, hphase] at h
      split at h
      · simp at h
      · split at h <;> simp at h
  | registered context nonce =>
      simp only [step, hphase] at h
      split at h <;> simp at h
  | written context =>
      simp only [step, hphase, Machine.phase_enter_self] at h
      have hnonce := hashedPhase_eq_candidate h
      rw [hnonce] at h
      exact ⟨⟨context, share, hphase, h⟩, hnonce⟩
  | candidate share hashedNonce => simp [step, hphase] at h
  | submitted share => simp [step, hphase] at h
  | finished result => simp [step, hphase] at h

/-- A candidate was found by its last step. -/
theorem exists_findsBlock {i : ι} {share : MinedShare} {hashedNonce : Nat}
    (hstart : ∀ share n, machine.phase i ≠ .candidate share n)
    (h : (manager.run machine schedule).phase i = .candidate share hashedNonce) :
    ∃ before between, schedule = before ++ i :: between ∧ i ∉ between ∧
      manager.FindsBlock (manager.run machine before) i ∧
      hashedNonce = (manager.run machine before).state.headerNonce := by
  induction schedule using List.reverseRecOn with
  | nil => exact absurd h (hstart share hashedNonce)
  | append_singleton schedule j ih =>
      rw [run_concat] at h
      by_cases hj : i = j
      · subst hj
        exact ⟨schedule, [], rfl, List.not_mem_nil, findsBlock_of_candidate h⟩
      · rw [phase_step_of_ne hj] at h
        obtain ⟨before, between, hschedule, hnot, hfinds⟩ := ih h
        refine ⟨before, between ++ [j], ?_, ?_, hfinds⟩
        · rw [hschedule, List.append_assoc, List.cons_append]
        · rw [List.mem_append, List.mem_singleton]
          exact not_or.mpr ⟨hnot, hj⟩

theorem sentBlocks_step_of_candidate (manager : KaspaJobManager ι) {i : ι} {share : MinedShare}
    {hashedNonce : Nat}
    (h : machine.phase i = .candidate share hashedNonce) :
    (manager.step machine i).sentBlocks =
      machine.sentBlocks ++ [⟨i, hashedNonce, machine.state.headerNonce⟩] := by
  simp [step, h]

theorem sentBlocks_step_of_forall_ne (manager : KaspaJobManager ι) {i : ι}
    (h : ∀ share n, machine.phase i ≠ .candidate share n) :
    (manager.step machine i).sentBlocks = machine.sentBlocks := by
  cases hphase : machine.phase i with
  | received context nonce =>
      simp only [step, hphase]
      split
      · rfl
      · split <;> rfl
  | registered context nonce =>
      simp only [step, hphase]
      split <;> rfl
  | written context => simp [step, hphase]
  | candidate share hashedNonce => exact absurd hphase (h share hashedNonce)
  | submitted share => simp [step, hphase]
  | finished result => simp [step, hphase]

theorem mem_sentBlocks_run (manager : KaspaJobManager ι) {block : SentBlock ι}
    (h : block ∈ machine.sentBlocks) (schedule : List ι) :
    block ∈ (manager.run machine schedule).sentBlocks := by
  induction schedule using List.reverseRecOn with
  | nil => exact h
  | append_singleton schedule i ih =>
      rw [run_concat]
      by_cases hcandidate : ∃ share n,
          (manager.run machine schedule).phase i = .candidate share n
      · obtain ⟨share, n, hphase⟩ := hcandidate
        rw [sentBlocks_step_of_candidate manager hphase]
        exact List.mem_append_left _ ih
      · have hne := fun share n hphase => hcandidate ⟨share, n, hphase⟩
        rw [sentBlocks_step_of_forall_ne manager hne]
        exact ih

variable (manager)

/-- Every block goes to the node with the nonce that was hashed. -/
def SendsHashedNonces (schedule : List ι) :
    Prop :=
  ∀ block ∈ (manager.run manager.start schedule).sentBlocks,
    block.sentNonce = block.hashedNonce

/-- The last nonce that others write between a candidate's hash and its block is the hashed one. -/
def Undisturbed (schedule : List ι) : Prop :=
  ∀ before i between after, schedule = before ++ i :: (between ++ i :: after) → i ∉ between →
    manager.FindsBlock (manager.run manager.start before) i →
      ∀ n ∈ (manager.writtenNonces
          (manager.run manager.start (before ++ [i])) between).getLast?,
        n = (manager.run manager.start before).state.headerNonce

variable {manager}

/-- Hashing writes nothing. -/
theorem headerNonce_step_of_findsBlock {i : ι} (h : manager.FindsBlock machine i) :
    (manager.step machine i).state.headerNonce = machine.state.headerNonce := by
  obtain ⟨context, share, hphase, -⟩ := h
  rw [headerNonce_step, writtenNonce, hphase, Option.getD_none]

theorem phase_step_of_findsBlock {i : ι} (h : manager.FindsBlock machine i) :
    ∃ share, (manager.step machine i).phase i =
      .candidate share machine.state.headerNonce := by
  obtain ⟨context, share, hphase, hhashed⟩ := h
  refine ⟨share, ?_⟩
  simp [step, hphase, hhashed]

/-- What a candidate's block is sent with. -/
theorem headerNonce_at_send {before between : List ι} {i : ι}
    (h : manager.FindsBlock (manager.run machine before) i) :
    (manager.run machine (before ++ i :: between)).state.headerNonce =
      (manager.writtenNonces (manager.run machine (before ++ [i]))
        between).getLast?.getD (manager.run machine before).state.headerNonce := by
  rw [List.append_cons, run_append, headerNonce_run]
  rw [run_concat, headerNonce_step_of_findsBlock h]

theorem Undisturbed.of_append {i : ι} (h : manager.Undisturbed (schedule ++ [i])) :
    manager.Undisturbed schedule := by
  intro before j between after hschedule
  apply h before j between (after ++ [i])
  rw [hschedule]
  simp

/-- Blocks are sent with the hashed nonces exactly when nothing else was written last in between. -/
theorem sendsHashedNonces_iff_undisturbed (manager : KaspaJobManager ι) (schedule : List ι) :
    manager.SendsHashedNonces schedule ↔ manager.Undisturbed schedule := by
  constructor
  · intro hsends before i between after hschedule hnot hfinds n hn
    obtain ⟨share, hcandidate⟩ := phase_step_of_findsBlock hfinds
    have hphase : (manager.run manager.start (before ++ i :: between)).phase i =
        .candidate share (manager.run manager.start before).state.headerNonce := by
      rw [List.append_cons, run_append, phase_run_of_notMem hnot, run_concat, hcandidate]
    have hsent := sentBlocks_step_of_candidate manager hphase
    have hrun : manager.run manager.start schedule =
        manager.run (manager.step (manager.run manager.start (before ++ i :: between)) i)
          after := by
      rw [hschedule, ← List.cons_append, ← List.append_assoc, run_append]
      rfl
    have hmem := mem_sentBlocks_run manager
      (hsent ▸ List.mem_append_right _ (List.mem_singleton_self _)) after
    rw [← hrun] at hmem
    have hsame := hsends _ hmem
    dsimp only at hsame
    rwa [headerNonce_at_send hfinds, Option.mem_def.mp hn, Option.getD_some] at hsame
  · induction schedule using List.reverseRecOn with
    | nil =>
        intro _ block hblock
        cases hblock
    | append_singleton schedule j ih =>
        intro hundisturbed block hblock
        have hbefore := ih hundisturbed.of_append
        rw [run_concat] at hblock
        by_cases hcandidate : ∃ share n,
            (manager.run manager.start schedule).phase j = .candidate share n
        · obtain ⟨share, n, hphase⟩ := hcandidate
          rw [sentBlocks_step_of_candidate manager hphase, List.mem_append,
            List.mem_singleton] at hblock
          obtain hold | rfl := hblock
          · exact hbefore block hold
          · have hstart : ∀ share n, manager.start.phase j ≠ .candidate share n :=
              fun share n h => by cases h
            obtain ⟨before, between, hschedule, hnot, hfinds, rfl⟩ :=
              exists_findsBlock hstart hphase
            have hlast := hundisturbed before j between [] (by rw [hschedule]; simp) hnot hfinds
            dsimp only
            rw [hschedule, headerNonce_at_send hfinds]
            cases hwritten : (manager.writtenNonces (manager.run manager.start (before ++ [j]))
              between).getLast? with
            | none => rfl
            | some n => exact hlast n hwritten
        · rw [sentBlocks_step_of_forall_ne manager fun share n hphase =>
            hcandidate ⟨share, n, hphase⟩] at hblock
          exact hbefore block hblock

/-- Two connections of which the first finds a block with nonce 1 and the second submits 2. -/
def secondWriter : KaspaJobManager (Fin 2) where
  job :=
    { daaScore := 1, difficulty := 1, shareMultiplier := 1, blockTargetValue := 1,
      hashCoinbase := id, hashHeader := fun _ => "", isLow := fun _ _ => false,
      shareDiff := fun _ => "" }
  submissions i :=
    ({ difficulty := 1, extraNonce1 := "1001".toList }, hexText 16 (i.val + 1))
  accepts _ := true

/-- The block of nonce 1 is sent with nonce 2. -/
theorem not_sendsHashedNonces_secondWriter :
    ¬ secondWriter.SendsHashedNonces [0, 0, 0, 1, 1, 0] := by
  have hsent : (secondWriter.run secondWriter.start [0, 0, 0, 1, 1, 0]).sentBlocks =
      [⟨0, 1, 2⟩] := by
    decide +kernel
  intro h
  exact absurd (h ⟨0, 1, 2⟩ (by rw [hsent]; exact List.mem_singleton_self _)) (by decide)

end KaspaJobManager

end Miningcore.Kaspa
