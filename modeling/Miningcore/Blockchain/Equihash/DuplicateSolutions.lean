import Miningcore.Blockchain.Equihash.VeruscoinJob

/-!
# Verus solutions credited twice

The registry of a Veruscoin job keeps the nonce and the solution. When PBaaS is
active, the nonce is not hashed any more, and a solution is credited again with any
other one.
-/

namespace Miningcore.Equihash

open Foundation

namespace VeruscoinJob

variable (job : VeruscoinJob)

/-- What is registered. -/
def key (submission : Submission) : Option (List Char) :=
  (job.checkSubmission submission).toOption.map fun _ =>
    ignoringCase (submission.nonce ++ submission.solution)

/-- The header and the solution that are hashed for a submission that is registered. -/
def hashedBytes (submission : Submission) : Option Bytes :=
  (job.checkSubmission submission).toOption.map fun nTime =>
    job.serializeHeader nTime (job.headerNonce submission.nonce) ++
      hexToByteArray submission.solution

/-- The outcome of a submission when it is no duplicate. -/
def share (submission : Submission) : Except SubmitException (MinedShare × Option (List Char)) :=
  match job.checkSubmission submission with
  | .error exception => .error exception
  | .ok nTime => job.processRegistered submission nTime

/-- The texts of a submission that is registered are digits. -/
def HasHexTexts (submission : Submission) : Prop :=
  (job.checkSubmission submission).toOption.isSome →
    IsHexPairs submission.nonce ∧ IsHexPairs submission.solution

instance (submission : Submission) : Decidable (job.HasHexTexts submission) :=
  inferInstanceAs (Decidable (_ → _))

/-- A solution comes with one nonce only. -/
def HasOneNonce (submissions : List Submission) : Prop :=
  ∀ first ∈ submissions, ∀ second ∈ submissions,
    (job.checkSubmission first).toOption.isSome → (job.checkSubmission second).toOption.isSome →
      ignoringCase first.solution = ignoringCase second.solution →
        ignoringCase first.nonce = ignoringCase second.nonce

theorem processRegistered_ne_duplicate (submission : Submission) (nTime : ℕ) :
    job.processRegistered submission nTime ≠ .error duplicateShare := by
  dsimp only [processRegistered]
  split
  · rintro ⟨⟩
  · split
    · rintro ⟨⟩
    · split
      · rintro ⟨⟩
      · dsimp only [processShareInternal]
        split
        · rename_i exception hversion
          rw [Ne, Except.error.injEq]
          rintro rfl
          dsimp only [hashVersion] at hversion
          split at hversion
          · split at hversion
            · split at hversion
              · cases hversion
              · split at hversion
                · cases hversion
                · split at hversion
                  · cases hversion
                  · cases hversion
            · cases hversion
          · cases hversion
        · dsimp only [hashShare]
          split
          · rintro ⟨⟩
          · rintro ⟨⟩

theorem checkSubmission_ne_duplicate (submission : Submission) :
    job.checkSubmission submission ≠ .error duplicateShare := by
  rw [checkSubmission]
  split
  · rintro ⟨⟩
  · split
    · rintro ⟨⟩
    · split
      · rintro ⟨⟩
      · split
        · rintro ⟨⟩
        · split
          · rintro ⟨⟩
          · split
            · rintro ⟨⟩
            · rintro ⟨⟩

theorem registersOnce :
    RegistersOnce job.key job.hashedBytes job.share duplicateShare job.processShare where
  refused {submission} h registered := by
    rw [key, Option.map_eq_none_iff] at h
    cases hcheck : job.checkSubmission submission with
    | error exception => simp only [processShare, share, hcheck]
    | ok nTime => simp [hcheck, Except.toOption] at h
  again {submission k} h registered hmem := by
    obtain ⟨nTime, hcheck, rfl⟩ := Option.map_eq_some_iff.mp h
    cases hresult : job.checkSubmission submission with
    | error exception => simp [hresult, Except.toOption] at hcheck
    | ok nTime' => simp only [processShare, hresult, registerVersucoinSubmit, hmem, if_true]
  first {submission k} h registered hnew := by
    obtain ⟨nTime, hcheck, rfl⟩ := Option.map_eq_some_iff.mp h
    cases hresult : job.checkSubmission submission with
    | error exception => simp [hresult, Except.toOption] at hcheck
    | ok nTime' =>
        simp only [processShare, share, hresult, registerVersucoinSubmit, hnew, if_false]
  share_ne submission := by
    rw [share]
    split
    · rename_i exception hcheck
      intro h
      cases h
      exact job.checkSubmission_ne_duplicate submission hcheck
    · exact job.processRegistered_ne_duplicate submission _
  isSome_work submission := by
    rw [hashedBytes, key, Option.isSome_map, Option.isSome_map]

end VeruscoinJob

variable {job : VeruscoinJob} {submission first second : Submission}

theorem exists_checkSubmission (h : (job.key submission).isSome) :
    job.checkSubmission submission = .ok job.blockTemplate.curTime := by
  rw [VeruscoinJob.key, Option.isSome_map] at h
  cases hcheck : job.checkSubmission submission with
  | error exception => simp [hcheck, Except.toOption] at h
  | ok nTime => rw [(VeruscoinJob.of_checkSubmission hcheck).1]

/-- Submissions that are hashed over the same bytes have the same solution, and the same nonce as
long as it is hashed. -/
theorem ignoringCase_eq_of_hashedBytes_eq (hkey : (job.key first).isSome)
    (hkey' : (job.key second).isSome) (hhex : job.HasHexTexts first)
    (hhex' : job.HasHexTexts second) (h : job.hashedBytes first = job.hashedBytes second) :
    ignoringCase first.solution = ignoringCase second.solution ∧
      (job.isPBaaSActive = false → ignoringCase first.nonce = ignoringCase second.nonce) := by
  have hcheck := exists_checkSubmission hkey
  have hcheck' := exists_checkSubmission hkey'
  obtain ⟨-, hnonce, hsolution⟩ := VeruscoinJob.of_checkSubmission hcheck
  obtain ⟨-, hnonce', hsolution'⟩ := VeruscoinJob.of_checkSubmission hcheck'
  obtain ⟨hpairs, hsolutionPairs⟩ := hhex (by rw [hcheck]; rfl)
  obtain ⟨hpairs', hsolutionPairs'⟩ := hhex' (by rw [hcheck']; rfl)
  simp only [VeruscoinJob.hashedBytes, hcheck, hcheck', Except.toOption, Option.map_some,
    Option.some.injEq] at h
  have hlength : (hexToByteArray first.solution).length =
      (hexToByteArray second.solution).length := by
    rw [hexToByteArray_of_isHexDigit hsolutionPairs.2,
      hexToByteArray_of_isHexDigit hsolutionPairs'.2, length_pairBytes, length_pairBytes,
      hsolution, hsolution']
  obtain ⟨hheader, hbytes⟩ := List.append_inj' h hlength
  refine ⟨(hexToByteArray_eq_iff hsolutionPairs hsolutionPairs').mp hbytes, fun hactive => ?_⟩
  rw [VeruscoinJob.serializeHeader, VeruscoinJob.serializeHeader, List.append_right_inj,
    VeruscoinJob.headerNonce, VeruscoinJob.headerNonce, hactive] at hheader
  exact (hexToByteArray_eq_iff hpairs hpairs').mp hheader

/-- No header and solution are credited twice in a run of texts of digits in which, when PBaaS is
active, every solution comes with one nonce. -/
theorem nodup_acceptedSolutions (job : VeruscoinJob) (submissions : List Submission)
    (hhex : ∀ submission ∈ submissions, job.HasHexTexts submission)
    (hone : job.isPBaaSActive → job.HasOneNonce submissions) :
    (acceptedWorks job.processShare job.hashedBytes submissions []).Nodup := by
  apply job.registersOnce.nodup_acceptedWorks
  intro first hfirst second hsecond hkey hkey' hsame
  obtain ⟨hsolution, hnonce⟩ := ignoringCase_eq_of_hashedBytes_eq hkey hkey'
    (hhex first hfirst) (hhex second hsecond) hsame
  have hcheck := exists_checkSubmission hkey
  have hcheck' := exists_checkSubmission hkey'
  have hsomes : (job.checkSubmission first).toOption.isSome ∧
      (job.checkSubmission second).toOption.isSome := by
    rw [hcheck, hcheck']
    exact ⟨rfl, rfl⟩
  have hnonces : ignoringCase first.nonce = ignoringCase second.nonce := by
    cases hactive : job.isPBaaSActive with
    | false => exact hnonce hactive
    | true => exact hone hactive first hfirst second hsecond hsomes.1 hsomes.2 hsolution
  rw [VeruscoinJob.key, VeruscoinJob.key, hcheck, hcheck', Except.toOption, Option.map_some,
    ignoringCase_append, ignoringCase_append, hsolution, hnonces]
  rfl

/-- A submission with another rest of the nonce. -/
def Submission.withExtraNonce2 (submission : Submission) (extraNonce2 : List Char) : Submission :=
  { submission with extraNonce2 }

theorem nonce_withExtraNonce2 (extraNonce2 : List Char) :
    (submission.withExtraNonce2 extraNonce2).nonce =
      submission.context.extraNonce1 ++ extraNonce2 := rfl

theorem checkSubmission_withExtraNonce2 {extraNonce2 : List Char}
    (hlength : extraNonce2.length = submission.extraNonce2.length) :
    job.checkSubmission (submission.withExtraNonce2 extraNonce2) =
      job.checkSubmission submission := by
  have hempty : extraNonce2 = [] ↔ submission.extraNonce2 = [] := by
    rw [← List.length_eq_zero_iff, hlength, List.length_eq_zero_iff]
  have hnonce :
      (submission.withExtraNonce2 extraNonce2).nonce.length = submission.nonce.length := by
    rw [nonce_withExtraNonce2, Submission.nonce, List.length_append, List.length_append, hlength]
  rw [VeruscoinJob.checkSubmission, VeruscoinJob.checkSubmission, hnonce]
  exact if_congr (or_congr_left hempty) rfl rfl

/-- When PBaaS is active, the rest of the nonce makes no difference to the share. -/
theorem processRegistered_withExtraNonce2 (hactive : job.isPBaaSActive) (extraNonce2 : List Char)
    (nTime : ℕ) :
    job.processRegistered (submission.withExtraNonce2 extraNonce2) nTime =
      job.processRegistered submission nTime := by
  simp only [VeruscoinJob.processRegistered, VeruscoinJob.headerNonce, hactive, if_true,
    Submission.withExtraNonce2]

/-- When PBaaS is active, a good solution is credited again with any other rest of the nonce. -/
theorem acceptedWorks_withExtraNonce2 (hactive : job.isPBaaSActive) {extraNonce2 : List Char}
    {work : Bytes} (hlength : extraNonce2.length = submission.extraNonce2.length)
    (hother : ignoringCase extraNonce2 ≠ ignoringCase submission.extraNonce2)
    (hgood : RegistersOnce.goodWork job.hashedBytes job.share submission = some work) :
    acceptedWorks job.processShare job.hashedBytes
      [submission, submission.withExtraNonce2 extraNonce2] [] = [work, work] := by
  have hcheck : job.checkSubmission (submission.withExtraNonce2 extraNonce2) =
      job.checkSubmission submission := checkSubmission_withExtraNonce2 hlength
  have hshare : job.share (submission.withExtraNonce2 extraNonce2) = job.share submission := by
    simp only [VeruscoinJob.share, hcheck, processRegistered_withExtraNonce2 hactive]
  have hbytes : job.hashedBytes (submission.withExtraNonce2 extraNonce2) =
      job.hashedBytes submission := by
    simp only [VeruscoinJob.hashedBytes, VeruscoinJob.headerNonce, hcheck, hactive, if_true]
    rfl
  refine job.registersOnce.acceptedWorks_pair ?_ hgood (by
    rw [RegistersOnce.goodWork, hshare, hbytes]
    exact hgood)
  obtain ⟨-, hwork⟩ := RegistersOnce.goodWork_eq_some_iff.mp hgood
  obtain ⟨nTime, hsome, -⟩ := Option.map_eq_some_iff.mp hwork
  rw [VeruscoinJob.key, VeruscoinJob.key, hcheck, hsome, Option.map_some, Option.map_some, Ne,
    Option.some.injEq, ignoringCase_append, ignoringCase_append]
  intro hsame
  have hnonce := List.append_cancel_right hsame
  rw [nonce_withExtraNonce2, Submission.nonce, ignoringCase_append, ignoringCase_append] at hnonce
  exact hother (List.append_cancel_left hnonce).symm

namespace FreeNonces

/-- A job after the activation of PBaaS that takes every solution for a share. -/
def easyJob : VeruscoinJob where
  blockTemplate :=
    { height := 1
      version := 4
      curTime := 0
      previousBlockhash := []
      bits := []
      nonce := "00".toList
      solution := "07000000".toList
      transactions := [] }
  difficulty := 1
  merkleRoot := []
  hashReserved := []
  coinbaseInitial := []
  blockTargetValue := 0
  solutionSize := 1344
  solutionPreambleSize := 3
  verushash _ _ := []
  toUInt256 _ := 1
  isLow _ _ := false
  shareDiff _ := ""

/-- The job with shorter solutions. -/
def smallJob : VeruscoinJob := { easyJob with solutionSize := 20 }

/-- The first worker of the pool. -/
def context : EquihashWorkerContext :=
  (getSubscriberData (Nat.succ_pos 3) (.initial 4 1)
    { difficulty := 1, extraNonce1 := [], isHexPairs_extraNonce1 := isHexPairs_nil }).1

/-- A solution of so many zeros, the extranonce and a digit, with a digit at the end of the
nonce. -/
def submit (zeros : ℕ) (nonceDigit solutionDigit : Char) : Submission where
  context
  extraNonce2 := List.replicate 55 '0' ++ [nonceDigit]
  nTime := "00000000".toList
  solution := List.replicate zeros '0' ++ context.extraNonce1 ++ [solutionDigit]

end FreeNonces

open FreeNonces in
/-- One solution with two nonces. -/
theorem not_nodup_acceptedSolutions :
    ¬ (acceptedWorks easyJob.processShare easyJob.hashedBytes
      [submit 2685 '0' '0', submit 2685 '1' '0'] []).Nodup := by
  have hgood : (RegistersOnce.goodWork easyJob.hashedBytes easyJob.share
      (submit 2685 '0' '0')).isSome = true := by
    decide +kernel
  obtain ⟨work, hwork⟩ := Option.isSome_iff_exists.mp hgood
  have hother : submit 2685 '1' '0' =
      (submit 2685 '0' '0').withExtraNonce2 (List.replicate 55 '0' ++ ['1']) := rfl
  have hlength : (List.replicate 55 '0' ++ ['1']).length =
      (submit 2685 '0' '0').extraNonce2.length := rfl
  rw [hother, acceptedWorks_withExtraNonce2 (by decide +kernel) hlength (by decide +kernel) hwork]
  simp

open FreeNonces in
theorem nodup_acceptedSolutions_oneNonce :
    (acceptedWorks smallJob.processShare smallJob.hashedBytes
      [submit 37 '0' 'a', submit 37 '0' 'A', submit 37 '1' 'b'] []).Nodup := by
  apply nodup_acceptedSolutions
  · decide +kernel
  · intro
    unfold VeruscoinJob.HasOneNonce
    decide +kernel

end Miningcore.Equihash
