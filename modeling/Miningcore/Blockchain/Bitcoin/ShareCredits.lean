import Miningcore.Mining.RetargetCredit

/-!
# The credit of a Bitcoin share

A share is taken as a block candidate, for the current difficulty of its worker or,
after a retarget, for the previous one. The credit names the difficulty it is taken
for.

## Implementation notes

Share-diffs are exact.
-/

namespace Miningcore.Bitcoin

open Mining

/-- `BitcoinConstants.Diff1`, the digits `00ffff` and 52 zeros. -/
def diff1 : ℕ := 0xffff * 16 ^ 52

/-- A job that rates its shares by their exact share-diffs. -/
structure ExactDiffJob extends BitcoinJob where
  shareMultiplier_pos : 0 < shareMultiplier
  isLow_eq : isLow = lowRatio diff1 shareMultiplier

/-- The numbers and the extranonce that a job processes. -/
structure ParsedSubmission where
  extraNonce2 : List Char
  nTime : ℕ
  nonce : ℕ
  versionBits : Option UInt32
deriving DecidableEq

namespace ExactDiffJob

variable (job : ExactDiffJob) (context : BitcoinWorkerContext) (submission : ParsedSubmission)

/-- The hash of the header of a submission. -/
def headerValue : ℕ :=
  let coinbase := job.serializeCoinbase context.extraNonce1 submission.extraNonce2
  job.headerHasher (job.serializeHeader (job.coinbaseHasher coinbase) submission.nTime
    submission.nonce context.versionRollingMask submission.versionBits) submission.nTime

def process : Except SubmitException (MinedShare × Option (List Char)) :=
  job.processShareInternal context submission.extraNonce2 submission.nTime submission.nonce
    submission.versionBits

/-- The share-diff of a hash. -/
def shareDifficulty (hash : ℕ) : ℚ := diff1 / hash * job.shareMultiplier

/-- The share-diff of a hash is at least 0.99 of a difficulty. -/
def Reaches (hash : ℕ) (difficulty : ℚ) : Prop :=
  minRatio * difficulty ≤ job.shareDifficulty hash

instance (hash : ℕ) (difficulty : ℚ) : Decidable (job.Reaches hash difficulty) :=
  inferInstanceAs (Decidable (_ ≤ _))

/-- The share-diff of a hash is enough for a difficulty, which no negative one is. -/
def Meets (hash : ℕ) (difficulty : ℚ) : Prop := 0 ≤ difficulty ∧ job.Reaches hash difficulty

/-- The difficulty a share is credited with, in the unit of the worker's. -/
def credited (share : MinedShare) : ℚ := share.difficulty * job.shareMultiplier

/-- A submission is accepted if and only if its hash passes one of three tests, and credited with
the difficulty whose test it passes. -/
def CreditsTested : Prop :=
  let hash := job.headerValue context submission
  ((∃ result, job.process context submission = .ok result) ↔
    hash ≤ job.blockTargetValue ∨ job.Reaches hash context.difficulty ∨
      ∃ previous ∈ context.previousDifficulty, job.Reaches hash previous) ∧
  ∀ share block, job.process context submission = .ok (share, block) →
    job.Reaches hash (job.credited share) ∧
      (job.credited share = context.difficulty ∨
        context.previousDifficulty = some (job.credited share))

/-- The previous difficulty counts after a retarget only, and a block candidate is credited with
the current one. -/
def CreditsRetargeted : Prop :=
  let hash := job.headerValue context submission
  let first := hash ≤ job.blockTargetValue ∨ job.Meets hash context.difficulty
  ((∃ result, job.process context submission = .ok result) ↔
    first ∨ context.varDiffLastUpdate.isSome ∧
      ∃ previous ∈ context.previousDifficulty, job.Meets hash previous) ∧
  ∀ share block, job.process context submission = .ok (share, block) →
    first ∧ job.credited share = context.difficulty ∨
      ¬first ∧ job.Meets hash (job.credited share) ∧
        context.previousDifficulty = some (job.credited share)

variable {job context submission} {hash : ℕ} {share : MinedShare} {block : Option (List Char)}

theorem isLow_eq_false_iff {difficulty : ℚ} :
    job.isLow hash difficulty = false ↔ job.Meets hash difficulty := by
  rw [job.isLow_eq]
  exact lowRatio_eq_false_iff_le (by positivity) job.shareMultiplier_pos

/-- A share is credited with the difficulty it is taken for. -/
theorem exists_process_iff (hhash : job.headerValue context submission ≠ 0) {difficulty : ℚ} :
    (∃ share block, job.process context submission = .ok (share, block) ∧
        job.credited share = difficulty) ↔
      stratumDifficulty context.toWorkerDifficulty
        (decide (job.headerValue context submission ≤ job.blockTargetValue))
        (job.isLow (job.headerValue context submission)) = some difficulty := by
  have hmultiplier : job.shareMultiplier ≠ 0 := job.shareMultiplier_pos.ne'
  rw [headerValue] at hhash
  rw [process, BitcoinJob.processShareInternal, if_neg hhash, headerValue]
  dsimp only
  split
  · rename_i hnone
    simp [hnone]
  · rename_i accepted hsome
    simp [hsome, credited, div_mul_cancel₀ _ hmultiplier]

/-- The difficulties that a share can be credited with. -/
theorem exists_process_iff_meets (hhash : job.headerValue context submission ≠ 0)
    {difficulty : ℚ} :
    (∃ share block, job.process context submission = .ok (share, block) ∧
        job.credited share = difficulty) ↔
      (job.headerValue context submission ≤ job.blockTargetValue ∨
          job.Meets (job.headerValue context submission) context.difficulty) ∧
        context.difficulty = difficulty ∨
      ¬(job.headerValue context submission ≤ job.blockTargetValue ∨
          job.Meets (job.headerValue context submission) context.difficulty) ∧
        context.varDiffLastUpdate.isSome ∧ context.previousDifficulty = some difficulty ∧
          job.Meets (job.headerValue context submission) difficulty := by
  rw [exists_process_iff hhash, stratumDifficulty_eq_some_iff, decide_eq_true_iff]
  simp only [isLow_eq_false_iff]

/-- A share is accepted as a candidate or for a difficulty that its hash is enough for, and
credited with the current one before the previous one. -/
theorem creditsRetargeted (job : ExactDiffJob) (context : BitcoinWorkerContext)
    (submission : ParsedSubmission) (hhash : job.headerValue context submission ≠ 0) :
    job.CreditsRetargeted context submission := by
  constructor
  · constructor
    · rintro ⟨⟨share, block⟩, hprocess⟩
      have hcredit := (exists_process_iff_meets hhash).mp ⟨share, block, hprocess, rfl⟩
      obtain ⟨hfirst, -⟩ | ⟨-, hupdate, hprevious, hmeets⟩ := hcredit
      · exact Or.inl hfirst
      · exact Or.inr ⟨hupdate, _, hprevious, hmeets⟩
    · intro haccepted
      have hcredit : ∃ difficulty share block,
          job.process context submission = .ok (share, block) ∧
            job.credited share = difficulty := by
        simp only [exists_process_iff_meets hhash]
        by_cases hfirst : job.headerValue context submission ≤ job.blockTargetValue ∨
            job.Meets (job.headerValue context submission) context.difficulty
        · exact ⟨_, Or.inl ⟨hfirst, rfl⟩⟩
        · obtain ⟨hupdate, previous, hprevious, hmeets⟩ := haccepted.resolve_left hfirst
          exact ⟨previous, Or.inr ⟨hfirst, hupdate, hprevious, hmeets⟩⟩
      obtain ⟨_, share, block, hprocess, -⟩ := hcredit
      exact ⟨(share, block), hprocess⟩
  · intro share block hprocess
    have hcredit := (exists_process_iff_meets hhash).mp ⟨share, block, hprocess, rfl⟩
    obtain ⟨hfirst, hcurrent⟩ | ⟨hfirst, -, hprevious, hmeets⟩ := hcredit
    · exact Or.inl ⟨hfirst, hcurrent.symm⟩
    · exact Or.inr ⟨hfirst, hmeets, hprevious⟩

/-- A share that is not accepted although a test is passed. -/
theorem not_creditsTested_of_error {exception : SubmitException}
    (h : job.process context submission = .error exception)
    (hpassed : job.headerValue context submission ≤ job.blockTargetValue ∨
      job.Reaches (job.headerValue context submission) context.difficulty ∨
        ∃ previous ∈ context.previousDifficulty,
          job.Reaches (job.headerValue context submission) previous) :
    ¬job.CreditsTested context submission := by
  intro hcredits
  obtain ⟨result, hresult⟩ := hcredits.1.mpr hpassed
  exact absurd (h.symm.trans hresult) (by simp)

end ExactDiffJob

/-! ### Other tests -/

namespace FixedHash

theorem shareMultiplier_pos : (0 : ℚ) < 1 := by norm_num

/-- A job whose every header has a hash. -/
def job (blockTargetValue hash : ℕ) : ExactDiffJob where
  height := 1
  version := 1
  curTime := 0
  previousBlockhash := []
  bits := []
  coinbaseInitial := []
  coinbaseFinal := []
  merkleSteps := []
  transactions := []
  networkDifficulty := 1000
  shareMultiplier := 1
  blockTargetValue
  coinbaseHasher bytes := bytes
  doubleDigest bytes := bytes
  headerHasher _ _ := hash
  blockHasher _ _ := ""
  isLow := lowRatio diff1 1
  shareDiff _ := ""
  shareMultiplier_pos := shareMultiplier_pos
  isLow_eq := rfl

def submission : ParsedSubmission := ⟨[], 0, 0, none⟩

/-- A worker that has not been retargeted. -/
def context (difficulty : ℚ) (previousDifficulty : Option ℚ) : BitcoinWorkerContext where
  difficulty
  previousDifficulty
  extraNonce1 := []

end FixedHash

open FixedHash in
/-- After a retarget the share is taken for the previous difficulty. -/
theorem creditsRetargeted_previous :
    (job 0 (diff1 / 2)).CreditsRetargeted
      { context 4 (some 1) with varDiffLastUpdate := some 1 } submission :=
  ExactDiffJob.creditsRetargeted _ _ _ (by decide)

open FixedHash in
/-- A previous difficulty without a retarget, a hash of zero and a negative difficulty are not
accepted. A block candidate below its difficulty is credited with it. -/
theorem not_creditsTested :
    ¬(job 0 (diff1 / 2)).CreditsTested (context 4 (some 1)) submission ∧
      ¬(job 0 0).CreditsTested (context 4 none) submission ∧
      ¬(job 0 (diff1 / 2)).CreditsTested (context (-1) none) submission ∧
      ¬(job diff1 (diff1 / 2)).CreditsTested (context 4 none) submission := by
  refine ⟨?_, ?_, ?_, ?_⟩
  · have hprocess : (job 0 (diff1 / 2)).process (context 4 (some 1)) submission =
        .error (.stratum .lowDifficultyShare "low difficulty share ()") := by decide +kernel
    apply ExactDiffJob.not_creditsTested_of_error hprocess
    exact Or.inr (Or.inr ⟨1, rfl, by decide +kernel⟩)
  · have hprocess : (job 0 0).process (context 4 none) submission = .error .divideByZero := rfl
    apply ExactDiffJob.not_creditsTested_of_error hprocess
    exact Or.inl le_rfl
  · have hprocess : (job 0 (diff1 / 2)).process (context (-1) none) submission =
        .error (.stratum .lowDifficultyShare "low difficulty share ()") := by decide +kernel
    apply ExactDiffJob.not_creditsTested_of_error hprocess
    exact Or.inr (Or.inl (by decide +kernel))
  · intro hcredits
    have hhash : (job diff1 (diff1 / 2)).headerValue (context 4 none) submission ≠ 0 := by decide
    obtain ⟨share, block, hshare, hcredit⟩ :=
      (ExactDiffJob.exists_process_iff_meets hhash).mpr (Or.inl ⟨Or.inl (by decide), rfl⟩)
    have hreaches := (hcredits.2 share block hshare).1
    rw [hcredit] at hreaches
    exact absurd hreaches (by decide +kernel)

end Miningcore.Bitcoin
