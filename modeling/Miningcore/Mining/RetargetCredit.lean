import Miningcore.Blockchain.Progpow.ProgpowJob
import Miningcore.Foundation.ThresholdSum
import Miningcore.Mining.WorkerContextBase
import Mathlib.Algebra.BigOperators.Field
import Mathlib.Data.Rat.Floor
import Mathlib.Tactic.FieldSimp

/-!
# Credit after a change of difficulty

A share that is too low for the current difficulty is taken for the previous one.
If that is the lower one, the hashes between the two earn besides what they would
earn at either difficulty alone.

## Implementation notes

Shares of block candidates are left out, and share-diffs are exact.
-/

namespace Miningcore.Mining

open Foundation

/-- The ratio of a share that is taken for a difficulty. -/
def minRatio : ℚ := 99 / 100

/-- The exact share-diff of a hash is below the ratio. No difficulty has an infinite one. -/
def lowRatio (K shareMultiplier : ℚ) (hash : ℕ) (difficulty : ℚ) : Bool :=
  let shareDiff := K / hash * shareMultiplier
  decide (difficulty ≠ 0 ∧ shareDiff / difficulty < minRatio)

/-- What a submission is credited with when it is no block candidate. -/
def credited {ε β : Type*} : Except ε (MinedShare × β) → ℚ
  | .ok (share, _) => if share.isBlockCandidate then 0 else share.difficulty
  | .error _ => 0

/-- The difficulty of a hash that is credited, and the one before it. -/
def creditedDifficulty (K shareMultiplier : ℚ) (worker : WorkerDifficulty) (hash : ℕ) : ℚ :=
  (stratumDifficulty worker false (lowRatio K shareMultiplier hash)).getD 0 / shareMultiplier

section jobs

variable {K : ℚ} (hash : ℕ)

/-- The credit of a share of a Bitcoin job whose header has a hash. -/
def bitcoinCredit (job : Bitcoin.BitcoinJob) (context : Bitcoin.BitcoinWorkerContext)
    (extraNonce2 : List Char) (nTime nonce : ℕ) (versionBits : Option UInt32) : ℚ :=
  credited ({ job with headerHasher := fun _ _ => hash }.processShareInternal context extraNonce2
    nTime nonce versionBits)

theorem bitcoinCredit_eq (job : Bitcoin.BitcoinJob)
    (hexact : job.isLow = lowRatio K job.shareMultiplier) (context : Bitcoin.BitcoinWorkerContext)
    (extraNonce2 : List Char) (nTime nonce : ℕ) (versionBits : Option UInt32) :
    bitcoinCredit hash job context extraNonce2 nTime nonce versionBits =
      if hash ≤ job.blockTargetValue then 0
      else creditedDifficulty K job.shareMultiplier context.toWorkerDifficulty hash := by
  rw [bitcoinCredit, Bitcoin.BitcoinJob.processShareInternal, hexact]
  by_cases hcandidate : hash ≤ job.blockTargetValue
  · by_cases hzero : hash = 0
    · simp [hzero, credited]
    · simp [hcandidate, hzero, credited]
  · have hzero : hash ≠ 0 := by
      rintro rfl
      exact hcandidate (Nat.zero_le _)
    simp only [hcandidate, hzero, decide_false, if_false, creditedDifficulty]
    cases stratumDifficulty context.toWorkerDifficulty false
        (lowRatio K job.shareMultiplier hash) with
    | none => simp [credited]
    | some difficulty => simp [credited]

/-- The credit of a share of a Progpow job whose result is a hash. -/
def progpowCredit (job : Progpow.ProgpowJob) (context : Progpow.ProgpowWorkerContext) (nonce : ℕ)
    (inputHeaderHash mixHash : List Char) : ℚ :=
  let compute (headerHash : Bytes) (nonce : ℕ) :=
    (job.compute headerHash nonce).map fun computed =>
      (computed.1, (Bitcoin.littleEndian 32 hash).reverse)
  credited ({ job with compute }.processShareInternal context nonce inputHeaderHash mixHash)

theorem progpowCredit_eq_or {hash : ℕ} (hhash : hash < 2 ^ 256) (job : Progpow.ProgpowJob)
    (hexact : job.isLow = lowRatio K job.shareMultiplier) (context : Progpow.ProgpowWorkerContext)
    (nonce : ℕ) (inputHeaderHash mixHash : List Char) :
    progpowCredit hash job context nonce inputHeaderHash mixHash = 0 ∨
      progpowCredit hash job context nonce inputHeaderHash mixHash =
        creditedDifficulty K job.shareMultiplier context.toWorkerDifficulty hash := by
  have hvalue : Progpow.toBigInteger (Bitcoin.littleEndian 32 hash) = hash :=
    Progpow.toBigInteger_littleEndian (by omega)
  rw [progpowCredit, Progpow.ProgpowJob.processShareInternal, Progpow.ProgpowJob.processShareWith]
  dsimp only
  split
  · exact Or.inl rfl
  · split
    · exact Or.inl rfl
    · rename_i hcompute
      obtain ⟨computed, -, hcomputed⟩ := Option.map_eq_some_iff.mp hcompute
      cases hcomputed
      split
      · exact Or.inl rfl
      · rw [List.reverse_reverse, hvalue, hexact]
        by_cases hcandidate : hash ≤ job.blockTargetValue
        · simp [hcandidate, credited]
        · right
          simp only [hcandidate, decide_false, creditedDifficulty]
          cases stratumDifficulty context.toWorkerDifficulty false
              (lowRatio K job.shareMultiplier hash) with
          | none => simp [credited]
          | some difficulty => simp [credited]

end jobs

section levels

variable {K shareMultiplier : ℚ} {hash : ℕ}

/-- What a difficulty alone credits a hash with. -/
def levelCredit (K shareMultiplier : ℚ) (hash : ℕ) (difficulty : ℚ) : ℚ :=
  if lowRatio K shareMultiplier hash difficulty then 0 else difficulty / shareMultiplier

/-- The level of a difficulty. -/
def level (shareMultiplier difficulty : ℚ) : ℚ := minRatio * difficulty / shareMultiplier

/-- A hash is enough for a positive difficulty if its own difficulty reaches it. -/
theorem lowRatio_eq_false_iff_of_pos {difficulty : ℚ} (hdifficulty : 0 < difficulty) :
    lowRatio K shareMultiplier hash difficulty = false ↔
      minRatio * difficulty ≤ K / hash * shareMultiplier := by
  rw [lowRatio, decide_eq_false_iff_not, not_and, not_lt, le_div_iff₀ hdifficulty]
  exact ⟨fun h => h hdifficulty.ne', fun h _ => h⟩

theorem lowRatio_eq_false_iff (hmultiplier : 0 < shareMultiplier) (hhash : 0 < hash)
    {difficulty : ℚ} (hdifficulty : 0 < difficulty) :
    lowRatio K shareMultiplier hash difficulty = false ↔
      level shareMultiplier difficulty * hash ≤ K := by
  have hcast : (0 : ℚ) < hash := Nat.cast_pos.mpr hhash
  rw [lowRatio_eq_false_iff_of_pos hdifficulty, level, div_mul_eq_mul_div, div_mul_eq_mul_div,
    div_le_iff₀ hmultiplier, le_div_iff₀ hcast]

theorem lowRatio_of_neg (hK : 0 ≤ K) (hmultiplier : 0 < shareMultiplier) {difficulty : ℚ}
    (hdifficulty : difficulty < 0) : lowRatio K shareMultiplier hash difficulty = true := by
  have hshareDiff : 0 ≤ K / hash * shareMultiplier := by positivity
  have hratio : K / hash * shareMultiplier / difficulty ≤ 0 :=
    div_nonpos_of_nonneg_of_nonpos hshareDiff hdifficulty.le
  rw [lowRatio, decide_eq_true_iff]
  exact ⟨hdifficulty.ne, hratio.trans_lt (by norm_num [minRatio])⟩

/-- The difficulties that a hash is enough for. -/
theorem lowRatio_eq_false_iff_le (hK : 0 ≤ K) (hmultiplier : 0 < shareMultiplier)
    {difficulty : ℚ} :
    lowRatio K shareMultiplier hash difficulty = false ↔
      0 ≤ difficulty ∧ minRatio * difficulty ≤ K / hash * shareMultiplier := by
  rcases lt_trichotomy difficulty 0 with hneg | rfl | hpos
  · simp [lowRatio_of_neg hK hmultiplier hneg, hneg.not_ge]
  · have hshareDiff : 0 ≤ K / hash * shareMultiplier := by positivity
    simpa [lowRatio] using hshareDiff
  · rw [lowRatio_eq_false_iff_of_pos hpos]
    exact (and_iff_right hpos.le).symm

theorem levelCredit_of_pos (hmultiplier : 0 < shareMultiplier) (hhash : 0 < hash)
    {difficulty : ℚ} (hdifficulty : 0 < difficulty) :
    levelCredit K shareMultiplier hash difficulty =
      levelPay K (level shareMultiplier difficulty) hash / minRatio := by
  rw [levelCredit, levelPay]
  have hiff := lowRatio_eq_false_iff (K := K) hmultiplier hhash hdifficulty
  by_cases hlow : lowRatio K shareMultiplier hash difficulty
  · rw [if_pos hlow, if_neg fun h => by simp [hiff.mpr h] at hlow, zero_div]
  · rw [if_neg hlow, if_pos (hiff.mp (Bool.not_eq_true _ ▸ hlow)), level]
    rw [mul_div_assoc, mul_div_cancel_left₀]
    norm_num [minRatio]

theorem levelCredit_of_nonpos (hK : 0 ≤ K) (hmultiplier : 0 < shareMultiplier) {difficulty : ℚ}
    (hdifficulty : difficulty ≤ 0) : levelCredit K shareMultiplier hash difficulty = 0 := by
  obtain hneg | rfl := hdifficulty.lt_or_eq
  · rw [levelCredit, if_pos (lowRatio_of_neg hK hmultiplier hneg)]
  · simp [levelCredit]

variable {previous current : ℚ} {worker : WorkerContextBase}

theorem creditedDifficulty_of_sinceChange (h : worker.SinceChange previous current) (hash : ℕ) :
    creditedDifficulty K shareMultiplier worker.toWorkerDifficulty hash =
      if lowRatio K shareMultiplier hash current then levelCredit K shareMultiplier hash previous
      else levelCredit K shareMultiplier hash current := by
  obtain ⟨hcurrent, hprevious, hupdate⟩ := h.difficulties
  obtain ⟨updated, hupdated⟩ := Option.isSome_iff_exists.mp hupdate
  rw [creditedDifficulty, stratumDifficulty, hcurrent, hprevious, hupdated, levelCredit,
    levelCredit]
  cases hlow : lowRatio K shareMultiplier hash current with
  | true =>
      cases hlower : lowRatio K shareMultiplier hash previous with
      | true => simp [hlower]
      | false => simp [hlower]
  | false => simp

/-- Two positive difficulties credit what two levels pay. -/
theorem creditedDifficulty_eq_twoLevelPay (h : worker.SinceChange previous current)
    (hmultiplier : 0 < shareMultiplier) (hprevious : 0 < previous) (hcurrent : 0 < current)
    (hhash : 0 < hash) :
    creditedDifficulty K shareMultiplier worker.toWorkerDifficulty hash =
      twoLevelPay K (level shareMultiplier current) (level shareMultiplier previous) hash /
        minRatio := by
  have hiff := lowRatio_eq_false_iff (K := K) hmultiplier hhash hcurrent
  rw [creditedDifficulty_of_sinceChange h, levelCredit_of_pos hmultiplier hhash hprevious,
    levelCredit_of_pos hmultiplier hhash hcurrent, twoLevelPay]
  by_cases hpays : level shareMultiplier current * hash ≤ K
  · rw [if_neg (Bool.not_eq_true _ ▸ hiff.mpr hpays), if_pos hpays, levelPay, if_pos hpays]
  · have hlow : lowRatio K shareMultiplier hash current = true := by
      rw [← Bool.not_eq_false, hiff]
      exact hpays
    rw [if_pos hlow, if_neg hpays]

/-- A difficulty that is not positive leaves the credit to the other one. -/
theorem creditedDifficulty_of_nonpos (h : worker.SinceChange previous current) (hK : 0 ≤ K)
    (hmultiplier : 0 < shareMultiplier) (hnonpos : previous ≤ 0 ∨ current ≤ 0) :
    ∃ difficulty, ∀ hash, creditedDifficulty K shareMultiplier worker.toWorkerDifficulty hash =
      levelCredit K shareMultiplier hash difficulty := by
  obtain hcurrent | hcurrent := le_or_gt current 0
  · obtain hneg | rfl := hcurrent.lt_or_eq
    · refine ⟨previous, fun hash => ?_⟩
      rw [creditedDifficulty_of_sinceChange h, if_pos (lowRatio_of_neg hK hmultiplier hneg)]
    · refine ⟨0, fun hash => ?_⟩
      have hlow : lowRatio K shareMultiplier hash 0 = false := by simp [lowRatio]
      rw [creditedDifficulty_of_sinceChange h, hlow]
      rfl
  · have hprevious : previous ≤ 0 := hnonpos.resolve_right hcurrent.not_ge
    refine ⟨current, fun hash => ?_⟩
    rw [creditedDifficulty_of_sinceChange h]
    split
    · rename_i hlow
      rw [levelCredit_of_nonpos hK hmultiplier hprevious, levelCredit, if_pos hlow]
    · rfl

theorem level_pos (hmultiplier : 0 < shareMultiplier) {difficulty : ℚ}
    (hdifficulty : 0 < difficulty) : 0 < level shareMultiplier difficulty :=
  div_pos (mul_pos (by norm_num [minRatio]) hdifficulty) hmultiplier

theorem level_div_level (hmultiplier : 0 < shareMultiplier) :
    level shareMultiplier previous / level shareMultiplier current = previous / current := by
  rw [level, level, div_div_div_cancel_right₀ hmultiplier.ne', mul_div_mul_left]
  norm_num [minRatio]

/-- One difficulty alone. -/
theorem sum_levelCredit_le (hK : 0 ≤ K) (hmultiplier : 0 < shareMultiplier) (difficulty : ℚ)
    {hashes : Finset ℕ} (hzero : 0 ∉ hashes) :
    ∑ hash ∈ hashes, levelCredit K shareMultiplier hash difficulty ≤ K / minRatio := by
  have hratio : (0 : ℚ) ≤ minRatio := by norm_num [minRatio]
  obtain hnonpos | hpos := le_or_gt difficulty 0
  · simp only [levelCredit_of_nonpos hK hmultiplier hnonpos, Finset.sum_const_zero]
    exact div_nonneg hK hratio
  · calc ∑ hash ∈ hashes, levelCredit K shareMultiplier hash difficulty
        = (∑ hash ∈ hashes, levelPay K (level shareMultiplier difficulty) hash) / minRatio := by
          rw [Finset.sum_div]
          exact Finset.sum_congr rfl fun hash hmem => levelCredit_of_pos hmultiplier
            (Nat.pos_of_ne_zero (ne_of_mem_of_not_mem hmem hzero)) hpos
      _ ≤ K / minRatio := div_le_div_of_nonneg_right
          (sum_levelPay_le hK (level_pos hmultiplier hpos) hzero) hratio

/-- The current and the previous difficulty together. -/
theorem sum_creditedDifficulty_le (h : worker.SinceChange previous current) (hK : 0 ≤ K)
    (hmultiplier : 0 < shareMultiplier) {hashes : Finset ℕ} (hzero : 0 ∉ hashes) :
    ∑ hash ∈ hashes, creditedDifficulty K shareMultiplier worker.toWorkerDifficulty hash ≤
      K / minRatio * (1 + max 0 (1 - previous / current)) := by
  have hratio : (0 : ℚ) ≤ minRatio := by norm_num [minRatio]
  by_cases hpositive : 0 < previous ∧ 0 < current
  · obtain ⟨hprevious, hcurrent⟩ := hpositive
    calc ∑ hash ∈ hashes, creditedDifficulty K shareMultiplier worker.toWorkerDifficulty hash
        = (∑ hash ∈ hashes, twoLevelPay K (level shareMultiplier current)
            (level shareMultiplier previous) hash) / minRatio := by
          rw [Finset.sum_div]
          exact Finset.sum_congr rfl fun hash hmem =>
            creditedDifficulty_eq_twoLevelPay h hmultiplier hprevious hcurrent
              (Nat.pos_of_ne_zero (ne_of_mem_of_not_mem hmem hzero))
      _ ≤ K * (1 + max 0 (1 - level shareMultiplier previous / level shareMultiplier current)) /
            minRatio := div_le_div_of_nonneg_right (sum_twoLevelPay_le hK
              (level_pos hmultiplier hcurrent) (level_pos hmultiplier hprevious) hzero) hratio
      _ = K / minRatio * (1 + max 0 (1 - previous / current)) := by
          rw [level_div_level hmultiplier, mul_div_right_comm]
  · rw [not_and_or, not_lt, not_lt] at hpositive
    obtain ⟨difficulty, hcredit⟩ := creditedDifficulty_of_nonpos h hK hmultiplier hpositive
    simp only [hcredit]
    refine (sum_levelCredit_le hK hmultiplier difficulty hzero).trans ?_
    rw [mul_add, mul_one]
    exact le_add_of_nonneg_right (mul_nonneg (div_nonneg hK hratio) (le_max_left _ _))

theorem creditedDifficulty_nonneg (h : worker.SinceChange previous current) (hK : 0 ≤ K)
    (hmultiplier : 0 < shareMultiplier) (hash : ℕ) :
    0 ≤ creditedDifficulty K shareMultiplier worker.toWorkerDifficulty hash := by
  have hlevel (difficulty : ℚ) : 0 ≤ levelCredit K shareMultiplier hash difficulty := by
    obtain hnonpos | hpos := le_or_gt difficulty 0
    · rw [levelCredit_of_nonpos hK hmultiplier hnonpos]
    · rw [levelCredit]
      split
      · exact le_rfl
      · exact (div_pos hpos hmultiplier).le
  rw [creditedDifficulty_of_sinceChange h]
  split
  · exact hlevel previous
  · exact hlevel current

/-- The first hashes are credited with so much when none of them makes a block candidate. -/
theorem lt_sum_creditedDifficulty (h : worker.SinceChange previous current) (hK : 0 ≤ K)
    (hmultiplier : 0 < shareMultiplier) (hprevious : 0 < previous) (hraised : previous < current)
    {last : ℕ} (hlast : ⌊K / level shareMultiplier previous⌋₊ ≤ last) :
    K / minRatio * (2 - previous / current) - current / shareMultiplier <
      ∑ hash ∈ Finset.Icc 1 last,
        creditedDifficulty K shareMultiplier worker.toWorkerDifficulty hash := by
  have hcurrent : 0 < current := hprevious.trans hraised
  have hratio : (0 : ℚ) < minRatio := by norm_num [minRatio]
  have hlevel : level shareMultiplier previous < level shareMultiplier current :=
    div_lt_div_of_pos_right (mul_lt_mul_of_pos_left hraised hratio) hmultiplier
  have hsum := lt_sum_twoLevelPay hK (level_pos hmultiplier hcurrent)
    (level_pos hmultiplier hprevious) hlevel hlast
  calc K / minRatio * (2 - previous / current) - current / shareMultiplier
      = (K * (2 - level shareMultiplier previous / level shareMultiplier current) -
          level shareMultiplier current) / minRatio := by
        rw [level_div_level hmultiplier, level]
        field_simp
    _ < (∑ hash ∈ Finset.Icc 1 last, twoLevelPay K (level shareMultiplier current)
          (level shareMultiplier previous) hash) / minRatio := div_lt_div_of_pos_right hsum hratio
    _ = ∑ hash ∈ Finset.Icc 1 last,
          creditedDifficulty K shareMultiplier worker.toWorkerDifficulty hash := by
        rw [Finset.sum_div]
        exact Finset.sum_congr rfl fun hash hmem => (creditedDifficulty_eq_twoLevelPay h
          hmultiplier hprevious hcurrent (Finset.mem_Icc.mp hmem).1).symm

end levels

/-- A change of difficulty inflates the credit by no more than the part the previous difficulty is
lower by, and the change to a lower difficulty not at all. -/
theorem sum_credited_le {K : ℚ} (hK : 0 ≤ K) {previous current : ℚ} {worker : WorkerContextBase}
    (hworker : worker.SinceChange previous current) {hashes : Finset ℕ}
    (hhashes : hashes ⊆ Finset.Ico 1 (2 ^ 256)) :
    (∀ job : Bitcoin.BitcoinJob, 0 < job.shareMultiplier →
      job.isLow = lowRatio K job.shareMultiplier →
      ∀ context : Bitcoin.BitcoinWorkerContext,
        context.toWorkerDifficulty = worker.toWorkerDifficulty →
        ∀ extraNonce2 nTime nonce versionBits,
          ∑ hash ∈ hashes, bitcoinCredit hash job context extraNonce2 nTime nonce versionBits ≤
            K / minRatio * (1 + max 0 (1 - previous / current))) ∧
    (∀ job : Progpow.ProgpowJob, 0 < job.shareMultiplier →
      job.isLow = lowRatio K job.shareMultiplier →
      ∀ context : Progpow.ProgpowWorkerContext,
        context.toWorkerDifficulty = worker.toWorkerDifficulty →
        ∀ nonce inputHeaderHash mixHash,
          ∑ hash ∈ hashes, progpowCredit hash job context nonce inputHeaderHash mixHash ≤
            K / minRatio * (1 + max 0 (1 - previous / current))) := by
  have hzero : 0 ∉ hashes := fun hmem => by simpa using hhashes hmem
  constructor
  · intro job hmultiplier hexact context hcontext extraNonce2 nTime nonce versionBits
    refine (Finset.sum_le_sum fun hash _ => ?_).trans
      (sum_creditedDifficulty_le hworker hK hmultiplier hzero)
    rw [bitcoinCredit_eq hash job hexact, hcontext]
    split
    · exact creditedDifficulty_nonneg hworker hK hmultiplier hash
    · exact le_rfl
  · intro job hmultiplier hexact context hcontext nonce inputHeaderHash mixHash
    refine (Finset.sum_le_sum fun hash hmem => ?_).trans
      (sum_creditedDifficulty_le hworker hK hmultiplier hzero)
    have hlt : hash < 2 ^ 256 := (Finset.mem_Ico.mp (hhashes hmem)).2
    obtain heq | heq := progpowCredit_eq_or hlt job hexact context nonce inputHeaderHash mixHash
    · rw [heq]
      exact creditedDifficulty_nonneg hworker hK hmultiplier hash
    · rw [heq, hcontext]

namespace Doubled

/-- A worker whose difficulty was doubled. -/
def worker : WorkerContextBase :=
  (WorkerContextBase.onVarDiffUpdate { difficulty := 1 } 1 2).applyPendingDifficulty.2

def K : ℚ := 99 / 25

def context : Bitcoin.BitcoinWorkerContext :=
  { worker.toWorkerDifficulty with extraNonce1 := "10000001".toList }

/-- A job with exact share-diffs whose block no hash meets. -/
def job : Bitcoin.BitcoinJob where
  height := 1
  version := 0x20000000
  curTime := 0
  previousBlockhash := []
  bits := []
  coinbaseInitial := []
  coinbaseFinal := []
  merkleSteps := []
  transactions := []
  networkDifficulty := 1
  shareMultiplier := 1
  blockTargetValue := 0
  coinbaseHasher := id
  doubleDigest := id
  headerHasher _ _ := 0
  blockHasher _ _ := ""
  isLow := lowRatio K 1
  shareDiff _ := ""

end Doubled

open Doubled in
/-- Two hashes are credited at the new difficulty and two more at the previous one. -/
theorem not_sum_credited_le : worker.SinceChange 1 2 ∧
    ¬ ∑ hash ∈ Finset.Icc 1 4, bitcoinCredit hash job context [] 0 0 none ≤ K / minRatio :=
  ⟨.changed _ 1 rfl, by decide +kernel⟩

open Doubled in
theorem sum_credited_le_doubled :
    ∑ hash ∈ Finset.Icc 1 4, bitcoinCredit hash job context [] 0 0 none ≤
      K / minRatio * (1 + max 0 (1 - 1 / 2)) :=
  (sum_credited_le (by decide +kernel) (.changed { difficulty := 1 } 1 rfl)
    (by decide +kernel)).1 job (by decide +kernel) rfl context rfl [] 0 0 none

end Miningcore.Mining
