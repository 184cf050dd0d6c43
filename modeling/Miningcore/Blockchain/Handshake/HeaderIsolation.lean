import Miningcore.Blockchain.Handshake.HandshakeJob

/-!
# Isolated headers of a Handshake job

The buffer for the extranonces is not cleared. What a longer submission has left
behind the end of a shorter one stands in the header of the shorter one.
-/

namespace Miningcore.Handshake

open Foundation Bitcoin

namespace HandshakeJob

variable (job : HandshakeJob)

/-- The header of a submission that is registered and has room in the buffer. -/
def headerOf (submission : Submission) (state : JobState) : Option Bytes :=
  match job.checkSubmission submission with
  | .error _ => none
  | .ok numbers =>
      match registerSubmit submission state with
      | none => none
      | some state =>
          let (extraNonce, fits) := serializeExtranonce submission state.zeroNonce
          if fits then some (job.serializeHeader numbers extraNonce) else none

def after (state : JobState) (submissions : List Submission) : JobState :=
  submissions.foldl (fun state submission => (job.processShare submission state).1) state

/-- Every header of a run of submissions is the one that a new job makes of its submission. -/
def Isolated (submissions : List Submission) : Prop :=
  ∀ earlier submission later, submissions = earlier ++ submission :: later →
    ∀ header ∈ job.headerOf submission (job.after {} earlier),
      job.headerOf submission {} = some header

/-- The submission is copied to the buffer, as far as there is room. -/
def copies (submission : Submission) (state : JobState) : Bool :=
  (job.checkSubmission submission).toOption.isSome && (registerSubmit submission state).isSome

/-- The extranonces that a run copies to the buffer. -/
def copied : JobState → List Submission → List Bytes
  | _, [] => []
  | state, submission :: rest =>
      (if job.copies submission state then [submission.extraNonceBytes] else []) ++
        copied (job.processShare submission state).1 rest

/-- Behind the end of every submission that is copied whole, the last of the earlier ones to reach
a place of the buffer has left a zero there. -/
def LeavesZeros (submissions : List Submission) : Prop :=
  ∀ earlier submission later, submissions = earlier ++ submission :: later →
    job.copies submission (job.after {} earlier) →
      submission.extraNonceBytes.length ≤ nonceSize →
        ∀ i, submission.extraNonceBytes.length ≤ i → i < nonceSize →
          ∀ b ∈ lastAt i (job.copied {} earlier), b = 0

variable {job} {submission : Submission} {state : JobState}

theorem processShare_fst :
    (job.processShare submission state).1 =
      match (job.checkSubmission submission).toOption, registerSubmit submission state with
      | some _, some registered =>
          { registered with
            zeroNonce := copyOver registered.zeroNonce submission.extraNonceBytes }
      | _, _ => state := by
  rw [processShare]
  cases job.checkSubmission submission with
  | error exception => rfl
  | ok numbers =>
      cases registerSubmit submission state with
      | none => rfl
      | some registered =>
          dsimp only [Except.toOption, processShareInternal, serializeExtranonce]
          rw [copyFrom_zero]

theorem zeroNonce_of_registerSubmit {registered : JobState}
    (h : registerSubmit submission state = some registered) :
    registered.zeroNonce = state.zeroNonce := by
  rw [registerSubmit] at h
  split at h
  · cases h
  · cases h
    rfl

/-- A step copies a submission to the buffer or leaves it alone. -/
theorem zeroNonce_processShare :
    (job.processShare submission state).1.zeroNonce =
      if job.copies submission state then copyOver state.zeroNonce submission.extraNonceBytes
      else state.zeroNonce := by
  rw [processShare_fst, copies]
  cases (job.checkSubmission submission).toOption with
  | none => rfl
  | some numbers =>
      cases hregister : registerSubmit submission state with
      | none => rfl
      | some registered => simp [zeroNonce_of_registerSubmit hregister]

/-- A run leaves what it copies, the last on top. -/
theorem zeroNonce_after (submissions : List Submission) (state : JobState) :
    (job.after state submissions).zeroNonce =
      (job.copied state submissions).foldl copyOver state.zeroNonce := by
  induction submissions generalizing state with
  | nil => rfl
  | cons submission rest ih =>
      have hstep : job.after state (submission :: rest) =
          job.after (job.processShare submission state).1 rest := rfl
      rw [hstep, ih, zeroNonce_processShare, copied]
      by_cases hcopies : job.copies submission state
      · simp [hcopies]
      · simp [hcopies]

theorem length_zeroNonce_after (submissions : List Submission) :
    (job.after {} submissions).zeroNonce.length = nonceSize := by
  rw [zeroNonce_after, length_foldl_copyOver]
  exact List.length_replicate

theorem serializeHeader_inj {numbers : Numbers} {extraNonce extraNonce' : Bytes}
    (hlength : extraNonce.length = extraNonce'.length) :
    job.serializeHeader numbers extraNonce = job.serializeHeader numbers extraNonce' ↔
      extraNonce = extraNonce' := by
  constructor
  · intro h
    simp only [serializeHeader, List.append_assoc, List.append_cancel_left_eq] at h
    exact List.append_inj_left h hlength
  · rintro rfl
    rfl

/-- The header of a submission whose extranonces are copied over a buffer of the right size. -/
theorem headerOf_eq_some_iff (hsize : state.zeroNonce.length = nonceSize) {header : Bytes} :
    job.headerOf submission state = some header ↔
      job.copies submission state ∧ submission.extraNonceBytes.length ≤ nonceSize ∧
        ∃ numbers, job.checkSubmission submission = .ok numbers ∧
          job.serializeHeader numbers (copyOver state.zeroNonce submission.extraNonceBytes) =
            header := by
  rw [headerOf, copies]
  cases job.checkSubmission submission with
  | error exception => simp [Except.toOption]
  | ok numbers =>
      cases hregister : registerSubmit submission state with
      | none => simp
      | some registered =>
          have hbuffer := zeroNonce_of_registerSubmit hregister
          simp [Except.toOption, serializeExtranonce, copyFrom_zero, hbuffer, hsize]

/-- A new job copies what passes its checks. -/
theorem copies_initial (h : job.copies submission state) : job.copies submission {} := by
  rw [copies, Bool.and_eq_true] at h ⊢
  refine ⟨h.1, ?_⟩
  rw [registerSubmit, if_neg List.not_mem_nil]
  rfl

/-- One header is the one that a new job makes. -/
theorem headerOf_initial_iff {header : Bytes} {earlier : List Submission}
    (h : job.headerOf submission (job.after {} earlier) = some header) :
    job.headerOf submission {} = some header ↔
      ∀ i, submission.extraNonceBytes.length ≤ i → i < nonceSize →
        ∀ b ∈ lastAt i (job.copied {} earlier), b = 0 := by
  obtain ⟨hcopies, hfits, numbers, hcheck, rfl⟩ :=
    (headerOf_eq_some_iff (length_zeroNonce_after earlier)).mp h
  have hinitial : ({} : JobState).zeroNonce = List.replicate nonceSize 0 := rfl
  have hsame := copyOver_foldl_eq_iff (List.replicate nonceSize 0) submission.extraNonceBytes
    (job.copied {} earlier)
  rw [List.length_replicate] at hsame
  rw [headerOf_eq_some_iff List.length_replicate, zeroNonce_after, hinitial]
  constructor
  · rintro ⟨-, -, numbers', hcheck', heq⟩ i hle hi b hb
    cases hcheck.symm.trans hcheck'
    have hbuffer := ((serializeHeader_inj (by simp)).mp heq).symm
    have hzero := hsame.mp hbuffer i hle hi b hb
    rw [List.getElem?_replicate_of_lt hi] at hzero
    exact (Option.some_inj.mp hzero).symm
  · intro hzeros
    refine ⟨copies_initial hcopies, hfits, numbers, hcheck, ?_⟩
    congr 1
    apply (hsame.mpr _).symm
    intro i hle hi b hb
    rw [List.getElem?_replicate_of_lt hi, hzeros i hle hi b hb]

theorem Isolated.leavesZeros {submissions : List Submission} (h : job.Isolated submissions) :
    job.LeavesZeros submissions := by
  intro earlier submission later hrun hcopies hfits
  cases hcheck : job.checkSubmission submission with
  | error exception =>
      rw [copies, hcheck] at hcopies
      cases hcopies
  | ok numbers =>
      have hheader := (headerOf_eq_some_iff (length_zeroNonce_after earlier)).mpr
        ⟨hcopies, hfits, numbers, hcheck, rfl⟩
      exact (headerOf_initial_iff hheader).mp (h earlier submission later hrun _ hheader)

theorem LeavesZeros.isolated {submissions : List Submission} (h : job.LeavesZeros submissions) :
    job.Isolated submissions := by
  intro earlier submission later hrun header hheader
  obtain ⟨hcopies, hfits, -⟩ :=
    (headerOf_eq_some_iff (length_zeroNonce_after earlier)).mp hheader
  exact (headerOf_initial_iff hheader).mpr (h earlier submission later hrun hcopies hfits)

/-- The headers depend on their own submissions exactly as long as every one finds zeros behind
its end. -/
theorem isolated_iff (job : HandshakeJob) (submissions : List Submission) :
    job.Isolated submissions ↔ job.LeavesZeros submissions :=
  ⟨Isolated.leavesZeros, LeavesZeros.isolated⟩

end HandshakeJob

/-! ### A shorter submission -/

namespace Leftover

/-- A job whose every share is a block candidate. -/
def job : HandshakeJob where
  height := 1
  version := 0
  curTime := 0
  bits := 0
  previousBlockhash := List.replicate 32 0
  length_previousBlockhash := List.length_replicate
  treeRoot := List.replicate 32 0
  length_treeRoot := List.length_replicate
  reservedRoot := []
  witnessRoot := []
  merkleRoot := []
  coinbaseInitial := []
  coinbaseFinal := []
  transactions := []
  networkDifficulty := 1
  shareMultiplier := 1
  blockTargetValue := 1
  headerHasher _ := []
  shareHasher _ := []
  blockHasher _ _ := []
  compactTarget _ := 1
  isLow _ _ := false
  shareDiff _ := ""

def submission (extraNonce2 : List Char) : Submission where
  context := { difficulty := 1, extraNonce1 := "00000001".toList }
  extraNonce2
  nTime := "00000000".toList
  nonce := "00000000".toList
  now := 0

end Leftover

open Leftover in
/-- The second byte of a first submission stands in the header of a second one that has only one. -/
theorem not_forall_isolated :
    ¬∀ (job : HandshakeJob) (submissions : List Submission), job.Isolated submissions := by
  intro h
  let long := submission "00ff".toList
  let short := submission "00".toList
  have hisolated := h job [long, short] [long] short [] rfl
  have hdiffer : job.headerOf short (job.after {} [long]) ≠ job.headerOf short {} ∧
      (job.headerOf short (job.after {} [long])).isSome := by decide +kernel
  obtain ⟨header, hheader⟩ := Option.isSome_iff_exists.mp hdiffer.2
  exact hdiffer.1 (hheader.trans (hisolated header hheader).symm)

end Miningcore.Handshake
