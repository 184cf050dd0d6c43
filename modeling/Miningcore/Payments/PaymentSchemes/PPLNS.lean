import Miningcore.Payments.PaymentSchemes.WindowRewards

/-!
# The PPLNS payment schemes

Both schemes read a `factor` from their configuration as the size of the window.
The variant with a finder share first reserves a percentage of the block reward
for the miner of the block.

## Implementation notes

What is logged is left out. With a factor of zero the closing message divides by it as well,
so that the calculation of no shares returns only where it is not logged.
-/

namespace Miningcore

open Foundation

/-- The factor of the payout configuration, or its default without a configuration. -/
def windowFactor (pool : PoolConfig) : ℚ :=
  (pool.payoutSchemeConfig.map PayoutSchemeConfig.factor).getD 2

def RewardState.calculation (st : RewardState) : Calculation :=
  ⟨st.shares, st.rewards, st.shareCutOffDate⟩

namespace PPLNSPaymentScheme

def pageSize : Nat := 50000

theorem pageSize_pos : 0 < pageSize := by decide

/-- The variables before the first page is read. -/
def start (blockReward : ℚ) : RewardState := { blockRewardRemaining := blockReward }

def calculateRewards (pageSize : Nat) (handler : PayoutHandler) (pool : PoolConfig)
    (ct : CancellationToken) (now : Nat) (window : ℚ) (block : Block) (blockReward : ℚ)
    (shares : List Share) : Except Exception (RewardState × Nat) :=
  PageLoop.readPages (WindowCalculation.processPage handler window blockReward) RewardState.done ct
    shares pool.id pageSize now block.created true (start blockReward)

def updateBalances : PayoutScheme := fun handler pool ct now block blockReward db =>
  match calculateRewards pageSize handler pool ct now (windowFactor pool) block blockReward
      db.shares with
  | .error e => .error e
  | .ok (st, now') => updateBalancesFrom pageSize ct pool block now' db st.calculation

end PPLNSPaymentScheme

namespace PPLNSBFPaymentScheme

def pageSize : Nat := 50000

theorem pageSize_pos : 0 < pageSize := by decide

def blockFinderPercentage (pool : PoolConfig) : ℚ :=
  (pool.payoutSchemeConfig.map PayoutSchemeConfig.blockFinderPercentage).getD 5

/-- The block finder reward (% of the block reward). -/
def blockFinderReward (pool : PoolConfig) (blockReward : ℚ) : ℚ :=
  blockReward * (blockFinderPercentage pool / 100)

/-- The variables before the first page is read. -/
def start (pool : PoolConfig) (block : Block) (blockReward : ℚ) : RewardState where
  rewards := .singleton block.miner (blockFinderReward pool blockReward)
  blockRewardRemaining := blockReward - blockFinderReward pool blockReward

def calculateRewards (pageSize : Nat) (handler : PayoutHandler) (pool : PoolConfig)
    (ct : CancellationToken) (now : Nat) (window : ℚ) (block : Block) (blockReward : ℚ)
    (shares : List Share) : Except Exception (RewardState × Nat) :=
  let blockRewardForShares := blockReward - blockFinderReward pool blockReward
  PageLoop.readPages (WindowCalculation.processPage handler window blockRewardForShares)
    RewardState.done ct shares pool.id pageSize now block.created true
    (start pool block blockReward)

def updateBalances : PayoutScheme := fun handler pool ct now block blockReward db =>
  match calculateRewards pageSize handler pool ct now (windowFactor pool) block blockReward
      db.shares with
  | .error e => .error e
  | .ok (st, now') => updateBalancesFrom pageSize ct pool block now' db st.calculation

end PPLNSBFPaymentScheme

/-! ## The results of the calculations -/

open WindowCalculation

theorem PPLNSPaymentScheme.running_start (window blockReward : ℚ) :
    Running window blockReward (start blockReward) :=
  ⟨rfl, le_rfl, by simp [start]⟩

theorem PPLNSBFPaymentScheme.running_start (window : ℚ) (pool : PoolConfig) (block : Block)
    (blockReward : ℚ) :
    Running window (blockReward - blockFinderReward pool blockReward)
      (start pool block blockReward) :=
  ⟨rfl, le_rfl, by simp [start]⟩

/-- The rewards of a PPLNS calculation go to addresses with a recorded difficulty. -/
theorem PPLNSPaymentScheme.keys_rewards_fill (handler : PayoutHandler) (window blockReward : ℚ)
    (l : List Share) :
    ∀ address ∈ (fill handler window blockReward (start blockReward) l).rewards.keys,
      address ∈ (fill handler window blockReward (start blockReward) l).shares.keys := by
  apply WindowCalculation.keys_rewards_fill
  intro address hmem
  cases hmem

theorem PPLNSPaymentScheme.updateBalances_ok {handler : PayoutHandler} {pool : PoolConfig}
    {ct : CancellationToken} {now : Nat} {block : Block} {blockReward : ℚ} {db : Database}
    {result : Database × Nat}
    (h : updateBalances handler pool ct now block blockReward db = .ok result) :
    ∃ st n, calculateRewards pageSize handler pool ct now (windowFactor pool) block blockReward
        db.shares = .ok (st, n) ∧ Settled pool.id db result.1 st.calculation := by
  rw [updateBalances] at h
  split at h
  · cases h
  · rename_i st n hcalc
    exact ⟨st, n, hcalc, updateBalancesFrom_ok h⟩

/-- After a calculation from scratch, nothing but the token keeps the update from ending. -/
theorem PPLNSPaymentScheme.exists_updateBalances {handler : PayoutHandler} {pool : PoolConfig}
    {ct : CancellationToken} {now n : Nat} {block : Block} {blockReward : ℚ} {db : Database}
    {l : List Share}
    (hcalc : calculateRewards pageSize handler pool ct now (windowFactor pool) block blockReward
      db.shares = .ok (fill handler (windowFactor pool) blockReward (start blockReward) l, n))
    (hct : ct = .none ∨
      (fill handler (windowFactor pool) blockReward (start blockReward) l).shareCutOffDate =
        none) :
    ∃ result, updateBalances handler pool ct now block blockReward db = .ok result := by
  rw [updateBalances, hcalc]
  exact exists_updateBalancesFrom (by decide) pool block n db
    (keys_rewards_fill handler _ blockReward l) hct

namespace PPLNSPaymentScheme

variable {handler : PayoutHandler} {pool : PoolConfig} {now : Nat} {block : Block}
  {blockReward : ℚ} {db : Database}

theorem calculateRewards_none_iff {st : RewardState} :
    (∃ n, calculateRewards pageSize handler pool .none now (windowFactor pool) block blockReward
        db.shares = .ok (st, n)) ↔
      thrown handler (windowFactor pool) blockReward 0
          (blockPages db.shares pool.id block pageSize).flatten = none ∧
        fill handler (windowFactor pool) blockReward (start blockReward)
          (blockPages db.shares pool.id block pageSize).flatten = st := by
  rw [calculateRewards, PageLoop.exists_readPages_none_iff now (by decide), foldPages_processPage,
    processPage_eq_ok_iff (running_start _ _)]
  rfl

/-- An uncancelled update settles the rewards of the walk down all pages. -/
theorem settled_updateBalances_none {result : Database × Nat}
    (h : updateBalances handler pool .none now block blockReward db = .ok result) :
    thrown handler (windowFactor pool) blockReward 0
        (blockPages db.shares pool.id block pageSize).flatten = none ∧
      Settled pool.id db result.1
        (fill handler (windowFactor pool) blockReward (start blockReward)
          (blockPages db.shares pool.id block pageSize).flatten).calculation := by
  obtain ⟨st, n, hcalc, hsettled⟩ := updateBalances_ok h
  obtain ⟨hnone, rfl⟩ := calculateRewards_none_iff.mp ⟨n, hcalc⟩
  exact ⟨hnone, hsettled⟩

theorem exists_updateBalances_none (now : Nat)
    (hnone : thrown handler (windowFactor pool) blockReward 0
      (blockPages db.shares pool.id block pageSize).flatten = none) :
    ∃ result, updateBalances handler pool .none now block blockReward db = .ok result := by
  obtain ⟨n, hcalc⟩ := calculateRewards_none_iff.mpr ⟨hnone, rfl⟩
  exact exists_updateBalances hcalc (Or.inl rfl)

end PPLNSPaymentScheme

theorem PPLNSBFPaymentScheme.updateBalances_ok {handler : PayoutHandler} {pool : PoolConfig}
    {ct : CancellationToken} {now : Nat} {block : Block} {blockReward : ℚ} {db : Database}
    {result : Database × Nat}
    (h : updateBalances handler pool ct now block blockReward db = .ok result) :
    ∃ st n, calculateRewards pageSize handler pool ct now (windowFactor pool) block blockReward
        db.shares = .ok (st, n) ∧ Settled pool.id db result.1 st.calculation := by
  rw [updateBalances] at h
  split at h
  · cases h
  · rename_i st n hcalc
    exact ⟨st, n, hcalc, updateBalancesFrom_ok h⟩

/-- An uncancelled update with a finder share ends when the finder has a share in the window. -/
theorem PPLNSBFPaymentScheme.exists_updateBalances_none (handler : PayoutHandler)
    (pool : PoolConfig) (now : Nat) (block : Block) (blockReward : ℚ) (db : Database)
    (hnone : thrown handler (windowFactor pool) (blockReward - blockFinderReward pool blockReward)
      0 (blockPages db.shares pool.id block pageSize).flatten = none)
    (hfinder : block.miner ∈ ((windowScan handler (windowFactor pool)).consume 0
      (blockPages db.shares pool.id block pageSize).flatten).map Share.miner) :
    ∃ result, updateBalances handler pool .none now block blockReward db = .ok result ∧
      result.1.credits = db.credits ++
        (fill handler (windowFactor pool) (blockReward - blockFinderReward pool blockReward)
          (start pool block blockReward)
          (blockPages db.shares pool.id block pageSize).flatten).rewards.entries.filter
            fun entry => 0 < entry.2 := by
  have hproc := (processPage_eq_ok_iff
    (running_start (windowFactor pool) pool block blockReward)).mpr ⟨hnone, rfl⟩
  rw [← foldPages_processPage] at hproc
  obtain ⟨n, hread⟩ := (PageLoop.exists_readPages_none_iff now pageSize_pos).mpr hproc
  have hkeys : ∀ address ∈ (start pool block blockReward).rewards.keys,
      address ∈ (start pool block blockReward).shares.keys ∨
        address ∈ ((windowScan handler (windowFactor pool)).consume 0
          (blockPages db.shares pool.id block pageSize).flatten).map Share.miner := by
    intro address hmem
    rw [List.mem_singleton.mp hmem]
    exact Or.inr hfinder
  rw [updateBalances, calculateRewards, hread]
  obtain ⟨result, hresult⟩ : ∃ result, updateBalancesFrom pageSize .none pool block n db
      (fill handler (windowFactor pool) (blockReward - blockFinderReward pool blockReward)
        (start pool block blockReward)
        (blockPages db.shares pool.id block pageSize).flatten).calculation = .ok result :=
    exists_updateBalancesFrom pageSize_pos pool block n db (keys_rewards_fill _ hkeys) (Or.inl rfl)
  exact ⟨result, hresult, (updateBalancesFrom_ok hresult).credits⟩

end Miningcore
