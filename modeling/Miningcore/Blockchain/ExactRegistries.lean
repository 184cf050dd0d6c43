import Miningcore.Blockchain.Alephium.AlephiumJob
import Miningcore.Blockchain.Beam.BeamJobManager
import Miningcore.Blockchain.Xelis.XelisJob

/-!
# Registries of texts against decoded bytes

The jobs of Alephium, Xelis and Beam register what is submitted as text and hash the
bytes of it. Texts of hexadecimal digits in pairs are told apart as their bytes are, up
to their case. Other texts are not: a character that is no digit, one without a partner
and a prefix come to the bytes of other texts, and a prefix in the other case to other
bytes.
-/

namespace Miningcore

open Foundation

namespace Beam

structure Submission where
  context : BeamWorkerContext
  nonce : List Char
  solution : List Char

namespace Submission

variable (submission : Submission)

/-- The nonce and the solution have their sizes. -/
def HasSizes : Prop :=
  submission.nonce.length = nonceSize ∧ submission.solution.length = solutionSize

instance : Decidable submission.HasSizes := inferInstanceAs (Decidable (_ ∧ _))

/-- What is registered. -/
def key : Option (List Char) :=
  if submission.HasSizes then some (ignoringCase (submission.nonce ++ submission.solution))
  else none

/-- The bytes that are hashed for a submission that is registered. -/
def hashedBytes : Option (List UInt8 × List UInt8) :=
  submission.key.map fun _ =>
    (hexToByteArray submission.solution, hexToByteArray submission.nonce)

variable {submission}

theorem hasSizes_of_key (h : submission.key.isSome) : submission.HasSizes := by
  rw [key] at h
  split at h
  · assumption
  · cases h

end Submission

namespace BeamJob

variable (job : BeamJob)

/-- The outcome of a submission that is refused before it is registered, or when it is no
duplicate. -/
def share (submission : Submission) : Except ℤ MinedShare :=
  if submission.nonce.length ≠ nonceSize then .error shareBadNonce
  else if submission.solution.length ≠ solutionSize then .error shareBadSolution
  else job.processShareInternal submission.context submission.nonce submission.solution

/-- The share of a submission with the texts registered after it. -/
def processSubmission (submission : Submission) (submissions : List (List Char)) :
    List (List Char) × Except ℤ MinedShare :=
  let (state, share) :=
    job.processShare submission.context submission.nonce submission.solution { submissions }
  (state.submissions, share)

theorem share_ne_duplicate (submission : Submission) :
    job.share submission ≠ .error duplicateShare := by
  rw [share]
  split
  · rintro ⟨⟩
  · split
    · rintro ⟨⟩
    · rw [processShareInternal, hashShare]
      split
      · dsimp only
        split
        · rintro ⟨⟩
        · rintro ⟨⟩
      · rintro ⟨⟩

theorem registersOnce : RegistersOnce Submission.key Submission.hashedBytes job.share
    duplicateShare job.processSubmission where
  refused {submission} h registered := by
    rw [Submission.key] at h
    split at h
    · cases h
    · rename_i hsizes
      rw [Submission.HasSizes, not_and_or] at hsizes
      by_cases hnonce : submission.nonce.length = nonceSize
      · have hsolution := hsizes.resolve_left (not_not.mpr hnonce)
        simp [processSubmission, processShare, share, hnonce, hsolution]
      · simp [processSubmission, processShare, share, hnonce]
  again {submission k} h registered hmem := by
    rw [Submission.key] at h
    split at h
    · rename_i hsizes
      cases h
      simp only [processSubmission, processShare, registerSubmit, hsizes.1, hsizes.2, ne_eq,
        not_true_eq_false, if_false, List.contains_iff_mem, hmem, if_true]
    · cases h
  first {submission k} h registered hnew := by
    rw [Submission.key] at h
    split at h
    · rename_i hsizes
      cases h
      simp only [processSubmission, processShare, registerSubmit, share, hsizes.1, hsizes.2, ne_eq,
        not_true_eq_false, if_false, List.contains_iff_mem, hnew]
    · cases h
  share_ne := job.share_ne_duplicate
  isSome_work submission := Option.isSome_map

end BeamJob

/-- Texts of digits are registered as what they are hashed to. -/
theorem key_eq_iff {first second : Submission}
    (hfirst : ∀ c ∈ first.nonce ++ first.solution, isHexDigit c)
    (hsecond : ∀ c ∈ second.nonce ++ second.solution, isHexDigit c) (hkey : first.key.isSome)
    (hkey' : second.key.isSome) :
    first.key = second.key ↔ first.hashedBytes = second.hashedBytes := by
  have hsizes := Submission.hasSizes_of_key hkey
  have hsizes' := Submission.hasSizes_of_key hkey'
  rw [List.forall_mem_append] at hfirst hsecond
  have hnonce : IsHexPairs first.nonce := ⟨by rw [hsizes.1]; decide, hfirst.1⟩
  have hnonce' : IsHexPairs second.nonce := ⟨by rw [hsizes'.1]; decide, hsecond.1⟩
  have hsolution : IsHexPairs first.solution := ⟨by rw [hsizes.2]; decide, hfirst.2⟩
  have hsolution' : IsHexPairs second.solution := ⟨by rw [hsizes'.2]; decide, hsecond.2⟩
  rw [Submission.hashedBytes, Submission.hashedBytes, Submission.key, Submission.key,
    if_pos hsizes, if_pos hsizes', Option.map_some, Option.map_some, Option.some.injEq,
    Option.some.injEq, Prod.mk.injEq, ignoringCase_append, ignoringCase_append,
    hexToByteArray_eq_iff hnonce hnonce', hexToByteArray_eq_iff hsolution hsolution']
  constructor
  · intro hsame
    exact (List.append_inj hsame
      (by rw [length_ignoringCase, length_ignoringCase, hsizes.1, hsizes'.1])).symm
  · rintro ⟨hsolutions, hnonces⟩
    rw [hsolutions, hnonces]

end Beam

/-- The registries are exact in runs whose nonces and solutions are hexadecimal digits, those of
Alephium in pairs. -/
theorem exact_registries (alephium : Alephium.AlephiumJob)
    (alephiumSubmissions : List Alephium.Submission) (xelis : Xelis.XelisJob)
    (xelisSubmissions : List Xelis.Submission) (beam : Beam.BeamJob)
    (beamSubmissions : List Beam.Submission) :
    ((∀ submission ∈ alephiumSubmissions, IsHexPairs submission.nonce) →
      IsExact alephium.processShare alephium.hashedBytes Alephium.duplicateShare
        alephiumSubmissions) ∧
    ((∀ submission ∈ xelisSubmissions, ∀ c ∈ submission.nonce, isHexDigit c) →
      IsExact xelis.processShare xelis.hashedBytes Xelis.duplicateShare xelisSubmissions) ∧
    ((∀ submission ∈ beamSubmissions, ∀ c ∈ submission.nonce ++ submission.solution,
        isHexDigit c) →
      IsExact beam.processSubmission Beam.Submission.hashedBytes Beam.duplicateShare
        beamSubmissions) := by
  refine ⟨fun h => ?_, fun h => ?_, fun h => ?_⟩
  · apply alephium.registersOnce.isExact
    intro first hfirst second hsecond
    exact alephium.key_eq_iff (h first hfirst) (h second hsecond)
  · apply xelis.registersOnce.isExact
    intro first hfirst second hsecond
    exact xelis.key_eq_iff (h first hfirst) (h second hsecond)
  · apply beam.registersOnce.isExact
    intro first hfirst second hsecond
    exact Beam.key_eq_iff (h first hfirst) (h second hsecond)

namespace SpelledTexts

/-- An Alephium job that takes every nonce for a share. -/
def alephiumJob : Alephium.AlephiumJob where
  height := 1
  difficulty := 1
  fromGroup := 0
  toGroup := 0
  headerBlob := []
  digest _ := [0, 0]
  isBlockCandidate _ := false
  isLow _ _ := false
  shareDiff _ := ""

/-- A Xelis job that takes every nonce for a share. -/
def xelisJob : Xelis.XelisJob where
  topoHeight := 1
  difficulty := 1
  prevHashBytes := []
  versionBytes := []
  heightBytes := []
  nTimeBytes := []
  tipsCountBytes := []
  tipsBytes := none
  transactionsCountBytes := []
  transactionsBytes := none
  minerPublicKeyBytes := []
  xelisHash := id
  blake3Hash := id
  isBlockCandidate _ := false
  isLow _ _ := false
  shareDiff _ := ""

/-- A Beam job that takes every solution for a share. -/
def beamJob : Beam.BeamJob where
  height := 1
  difficulty := 1
  verify _ _ := true
  sha256S := id
  isBlockCandidate _ := false
  isLow _ _ := false

def alephium (nonce : String) : Alephium.Submission := ⟨{ difficulty := 1 }, nonce.toList⟩

def xelis (nonce : String) : Xelis.Submission :=
  ⟨(Xelis.getSubscriberData Nat.two_pos (.initial 2 1)
    { difficulty := 1, extraNonce1 := [], isHexPairs_extraNonce1 := isHexPairs_nil }).1,
    nonce.toList⟩

def beam (nonce : String) : Beam.Submission :=
  ⟨{ difficulty := 1 }, nonce.toList, List.replicate 208 '0'⟩

end SpelledTexts

open SpelledTexts RegistersOnce in
/-- A text that comes to the bytes of another one, and a prefix in both cases, for each of the
jobs. -/
theorem inexact_registries :
    (¬ IsExact alephiumJob.processShare alephiumJob.hashedBytes Alephium.duplicateShare
        [alephium "000000000000000000000000000000000000000000000001",
          alephium "0x000000000000000000000000000000000000000000000001"] ∧
      ¬ IsExact alephiumJob.processShare alephiumJob.hashedBytes Alephium.duplicateShare
        [alephium "0x0000000000000000000000000000000000000000000001",
          alephium "0X0000000000000000000000000000000000000000000001"]) ∧
    (¬ IsExact xelisJob.processShare xelisJob.hashedBytes Xelis.duplicateShare
        [xelis "0000000000000010", xelis "000000000000000g"] ∧
      ¬ IsExact xelisJob.processShare xelisJob.hashedBytes Xelis.duplicateShare
        [xelis "0x00000000000001", xelis "0X00000000000001"]) ∧
    (¬ IsExact beamJob.processSubmission Beam.Submission.hashedBytes Beam.duplicateShare
        [beam "0000000000000010", beam "000000000000000g"] ∧
      ¬ IsExact beamJob.processSubmission Beam.Submission.hashedBytes Beam.duplicateShare
        [beam "0x00000000000001", beam "0X00000000000001"]) := by
  refine ⟨⟨?_, ?_⟩, ⟨?_, ?_⟩, ?_, ?_⟩
  · exact alephiumJob.registersOnce.not_isExact_of_goodWork_eq (by decide +kernel)
      (w := List.replicate 23 0 ++ [1]) (by decide +kernel) (by decide +kernel)
  · exact alephiumJob.registersOnce.not_isExact_of_key_eq (by decide +kernel)
      (by decide +kernel) (by decide +kernel)
  · exact xelisJob.registersOnce.not_isExact_of_goodWork_eq (by decide +kernel)
      (w := List.replicate 7 0 ++ [16, 0x10, 0x01]) (by decide +kernel) (by decide +kernel)
  · exact xelisJob.registersOnce.not_isExact_of_key_eq (by decide +kernel)
      (by decide +kernel) (by decide +kernel)
  · exact beamJob.registersOnce.not_isExact_of_goodWork_eq (by decide +kernel)
      (w := (List.replicate 104 0, List.replicate 7 0 ++ [16])) (by decide +kernel)
      (by decide +kernel)
  · exact beamJob.registersOnce.not_isExact_of_key_eq (by decide +kernel)
      (by decide +kernel) (by decide +kernel)

open SpelledTexts in
theorem exact_registries_cases :
    IsExact alephiumJob.processShare alephiumJob.hashedBytes Alephium.duplicateShare
      [alephium "00000000000000000000000000000000000000000000000a",
        alephium "00000000000000000000000000000000000000000000000A", alephium ""] ∧
    IsExact xelisJob.processShare xelisJob.hashedBytes Xelis.duplicateShare
      [xelis "000000000000000a", xelis "000000000000000A", xelis "00"] ∧
    IsExact beamJob.processSubmission Beam.Submission.hashedBytes Beam.duplicateShare
      [beam "000000000000000a", beam "000000000000000A", beam "00"] := by
  have h := exact_registries alephiumJob
    [alephium "00000000000000000000000000000000000000000000000a",
      alephium "00000000000000000000000000000000000000000000000A", alephium ""] xelisJob
    [xelis "000000000000000a", xelis "000000000000000A", xelis "00"] beamJob
    [beam "000000000000000a", beam "000000000000000A", beam "00"]
  refine ⟨h.1 ?_, h.2.1 ?_, h.2.2 ?_⟩
  · decide +kernel
  · intro submission hmem
    refine (?_ : IsHexPairs submission.nonce).2
    revert submission
    decide +kernel
  · intro submission hmem
    refine (?_ : IsHexPairs (submission.nonce ++ submission.solution)).2
    revert submission
    decide +kernel

end Miningcore
