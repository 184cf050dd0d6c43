import Miningcore.Blockchain.Kaspa.KaspaJob
import Miningcore.Mining.RetargetCredit

/-!
# The credit of a Kaspa share

A share that is too low for the current difficulty may be taken for the previous
one. It is credited with the current one all the same.

## Implementation notes

Share-diffs are exact.
-/

namespace Miningcore.Kaspa

open Mining

/-- `KaspaConstants.Diff1b`, the digits `00ffff` and 58 zeros. -/
def diff1b : ℕ := 0xffff * 16 ^ 58

/-- A job that rates its shares by their exact share-diffs. -/
structure ExactDiffJob extends KaspaJob where
  shareMultiplier_pos : 0 < shareMultiplier
  isLow_eq : isLow = lowRatio diff1b shareMultiplier

namespace ExactDiffJob

variable (job : ExactDiffJob) (context : KaspaWorkerContext)

/-- The share-diff of a hash. -/
def shareDifficulty (hash : ℕ) : ℚ := diff1b / hash * job.shareMultiplier

/-- The share-diff of a hash is enough for a difficulty. -/
def Meets (hash : ℕ) (difficulty : ℚ) : Prop :=
  0 ≤ difficulty ∧ minRatio * difficulty ≤ job.shareDifficulty hash

/-- The difficulty a share is credited with, in the unit of the worker's. -/
def credited (share : MinedShare) : ℚ := share.difficulty * job.shareMultiplier

/-- A share that is no block candidate is credited with no more than its header's hash is worth. -/
def CreditsWork (nonce : List Char) (state : JobState) : Prop :=
  ∀ after share, job.processShareInternal context nonce state = (after, .ok share) →
    share.isBlockCandidate = false →
    minRatio * job.credited share ≤ job.shareDifficulty (job.hashCoinbase after.headerNonce)

/-- The hash is no block candidate, and lies between the previous difficulty of a retarget and the
current one. -/
def BetweenDifficulties (hash : ℕ) : Prop :=
  job.blockTargetValue < hash ∧ context.varDiffLastUpdate.isSome ∧
    (∃ previous ∈ context.previousDifficulty, job.Meets hash previous) ∧
    job.shareDifficulty hash < minRatio * context.difficulty

variable {job context} {hash headerNonce : ℕ} {share : MinedShare}

theorem isLow_eq_false_iff {difficulty : ℚ} :
    job.isLow hash difficulty = false ↔ job.Meets hash difficulty := by
  rw [job.isLow_eq]
  exact lowRatio_eq_false_iff_le (by positivity) job.shareMultiplier_pos

/-- What a share that is no block candidate was accepted for. -/
theorem isSome_stratumDifficulty_iff :
    (stratumDifficulty context.toWorkerDifficulty false (job.isLow hash)).isSome ↔
      job.Meets hash context.difficulty ∨ context.varDiffLastUpdate.isSome ∧
        ∃ previous ∈ context.previousDifficulty, job.Meets hash previous := by
  simp only [← isLow_eq_false_iff]
  rw [stratumDifficulty]
  cases hlow : job.isLow hash context.difficulty with
  | false => simp
  | true =>
      cases hupdate : context.varDiffLastUpdate with
      | none => simp
      | some updated =>
          cases hprevious : context.previousDifficulty with
          | none => simp
          | some previous => cases hlower : job.isLow hash previous <;> simp [hlower]

/-- The credit names the current difficulty, whichever the share was taken for. -/
theorem credited_of_hashShare (h : job.hashShare context headerNonce = .ok share) :
    job.credited share = context.difficulty := by
  rw [KaspaJob.hashShare] at h
  split at h
  · cases h
  · cases h
    exact div_mul_cancel₀ _ job.shareMultiplier_pos.ne'

/-- The shares that a header gets when its hash is no block candidate. -/
theorem exists_hashShare_iff :
    (∃ share, job.hashShare context headerNonce = .ok share ∧ share.isBlockCandidate = false) ↔
      job.blockTargetValue < job.hashCoinbase headerNonce ∧
        (stratumDifficulty context.toWorkerDifficulty false
          (job.isLow (job.hashCoinbase headerNonce))).isSome := by
  rw [KaspaJob.hashShare]
  by_cases hcandidate : job.hashCoinbase headerNonce ≤ job.blockTargetValue
  · simp [hcandidate]
  · simp only [hcandidate, decide_false, ← not_le, not_false_eq_true, true_and]
    cases stratumDifficulty context.toWorkerDifficulty false
        (job.isLow (job.hashCoinbase headerNonce)) with
    | none => simp
    | some difficulty => simp

/-- A hash between the difficulties is accepted and worth less than its credit. -/
theorem betweenDifficulties_iff :
    job.BetweenDifficulties context (job.hashCoinbase headerNonce) ↔
      (∃ share, job.hashShare context headerNonce = .ok share ∧ share.isBlockCandidate = false) ∧
        job.shareDifficulty (job.hashCoinbase headerNonce) < minRatio * context.difficulty := by
  rw [exists_hashShare_iff, isSome_stratumDifficulty_iff, BetweenDifficulties]
  constructor
  · rintro ⟨htarget, hupdate, hprevious, hlow⟩
    exact ⟨⟨htarget, Or.inr ⟨hupdate, hprevious⟩⟩, hlow⟩
  · rintro ⟨⟨htarget, hmeets | hmeets⟩, hlow⟩
    · exact absurd hmeets.2 hlow.not_ge
    · exact ⟨htarget, hmeets.1, hmeets.2, hlow⟩

/-- Only a raised difficulty leaves hashes between. -/
theorem lt_of_betweenDifficulties (h : job.BetweenDifficulties context hash) :
    ∃ previous ∈ context.previousDifficulty, previous < context.difficulty := by
  obtain ⟨-, -, ⟨previous, hprevious, hmeets⟩, hlow⟩ := h
  have hratio : (0 : ℚ) < minRatio := by norm_num [minRatio]
  exact ⟨previous, hprevious, lt_of_mul_lt_mul_left (hmeets.2.trans_lt hlow) hratio.le⟩

/-- A nonce that is no number is not accepted, and any other one is the header's. -/
theorem processShareInternal_eq_ok_iff {nonce : List Char} {state after : JobState} :
    job.processShareInternal context nonce state = (after, .ok share) ↔
      ∃ headerNonce, convertToUInt64 nonce = .ok headerNonce ∧
        { state with headerNonce } = after ∧ job.hashShare context headerNonce = .ok share := by
  rw [KaspaJob.processShareInternal]
  cases convertToUInt64 nonce with
  | error exception => simp
  | ok headerNonce => simp

/-- Every share is credited for work done exactly as no header's hash lies between the
difficulties. -/
theorem creditsWork_iff (job : ExactDiffJob) (context : KaspaWorkerContext) (nonce : List Char)
    (state : JobState) :
    job.CreditsWork context nonce state ↔
      ∀ headerNonce, convertToUInt64 nonce = .ok headerNonce →
        ¬job.BetweenDifficulties context (job.hashCoinbase headerNonce) := by
  constructor
  · intro hcredits headerNonce hnonce hbetween
    obtain ⟨⟨share, hshare, hcandidate⟩, hlow⟩ := betweenDifficulties_iff.mp hbetween
    have hinternal := processShareInternal_eq_ok_iff.mpr
      ⟨headerNonce, hnonce, (rfl : { state with headerNonce } = _), hshare⟩
    have hworth := hcredits _ share hinternal hcandidate
    rw [credited_of_hashShare hshare] at hworth
    exact hlow.not_ge hworth
  · intro hnone after share hinternal hcandidate
    obtain ⟨headerNonce, hnonce, rfl, hshare⟩ := processShareInternal_eq_ok_iff.mp hinternal
    rw [credited_of_hashShare hshare]
    by_contra hlow
    exact hnone headerNonce hnonce
      (betweenDifficulties_iff.mpr ⟨⟨share, hshare, hcandidate⟩, not_le.mp hlow⟩)

/-- A worker whose previous difficulty is not the lower one is credited for work done only. -/
theorem creditsWork_of_le
    (h : ∀ previous ∈ context.previousDifficulty, context.difficulty ≤ previous)
    (nonce : List Char) (state : JobState) : job.CreditsWork context nonce state := by
  intro after share hinternal hcandidate
  obtain ⟨headerNonce, hnonce, rfl, hshare⟩ := processShareInternal_eq_ok_iff.mp hinternal
  rw [credited_of_hashShare hshare]
  by_contra hlow
  obtain ⟨previous, hprevious, hlt⟩ := lt_of_betweenDifficulties
    (betweenDifficulties_iff.mpr ⟨⟨share, hshare, hcandidate⟩, not_le.mp hlow⟩)
  exact (h previous hprevious).not_gt hlt

end ExactDiffJob

/-! ### A raised difficulty -/

namespace Raised

/-- A worker that mined at 1 before its difficulty was raised to 4. -/
def context : KaspaWorkerContext where
  difficulty := 4
  varDiffLastUpdate := some 1
  previousDifficulty := some 1
  extraNonce1 := "1000".toList

theorem shareMultiplier_pos : (0 : ℚ) < 1 := by norm_num

/-- A job whose every header has a hash of share-diff 2. -/
def job : ExactDiffJob where
  daaScore := 1
  difficulty := 1000
  shareMultiplier := 1
  blockTargetValue := diff1b / 1000
  hashCoinbase _ := diff1b / 2
  hashHeader _ := ""
  isLow := lowRatio diff1b 1
  shareDiff _ := "2"
  shareMultiplier_pos := shareMultiplier_pos
  isLow_eq := rfl

end Raised

/-- A share of the previous difficulty is credited with the current one, twice what it is worth. -/
theorem not_forall_creditsWork :
    ¬∀ (job : ExactDiffJob) (context : KaspaWorkerContext) (nonce : List Char) (state : JobState),
      job.CreditsWork context nonce state := by
  intro h
  have hinternal : ∃ share, Raised.job.processShareInternal Raised.context ['1'] {} =
      ({ headerNonce := 1 }, .ok share) ∧ share.isBlockCandidate = false ∧
      Raised.job.shareDifficulty (Raised.job.hashCoinbase 1) <
        minRatio * Raised.job.credited share := by
    refine ⟨⟨1, some 1000, 4, false, none, none⟩, ?_⟩
    decide +kernel
  obtain ⟨share, hshare, hcandidate, hlow⟩ := hinternal
  exact hlow.not_ge (h Raised.job Raised.context ['1'] {} _ share hshare hcandidate)

end Miningcore.Kaspa
