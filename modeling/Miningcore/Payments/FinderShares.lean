import Miningcore.Foundation.DictionaryUpdates
import Miningcore.Payments.PayoutManager

/-!
# The share of the finder

The scheme with a finder share rewards the miner of the block before it has read a share of its. The
text of a credit quotes the difficulty recorded for the address, and the finder has one only if it
has a share in the window.
-/

namespace Miningcore

open Foundation WindowCalculation

/-! ### Credits -/

/-- The credit loop ends exactly when every positive reward has a recorded difficulty. -/
theorem exists_creditRewards_iff {poolId : String} {blockHeight : Nat}
    {shares : Dictionary String ℚ} {entries : List (String × ℚ)} {db : Database} :
    (∃ db', creditRewards poolId blockHeight shares db entries = .ok db') ↔
      ∀ entry ∈ entries, 0 < entry.2 → entry.1 ∈ shares.keys := by
  constructor
  · rintro ⟨db', h⟩
    induction entries generalizing db with
    | nil => simp
    | cons entry entries ih =>
        obtain ⟨address, amount⟩ := entry
        rw [creditRewards] at h
        rw [List.forall_mem_cons]
        split at h
        · cases hfind : shares.find? address with
          | none => simp [hfind] at h
          | some quantity =>
              simp only [hfind] at h
              exact ⟨fun _ => Dictionary.exists_find?_iff.mp ⟨quantity, hfind⟩, ih h⟩
        · rename_i hnot
          exact ⟨fun hpos => absurd hpos hnot, ih h⟩
  · exact exists_creditRewards poolId blockHeight db

theorem exists_updateBalancesFrom_iff {pageSize : Nat} (hs : 0 < pageSize) {pool : PoolConfig}
    {block : Block} {now : Nat} {db : Database} {calculation : Calculation} :
    (∃ result, updateBalancesFrom pageSize .none pool block now db calculation = .ok result) ↔
      ∀ entry ∈ calculation.rewards.entries, 0 < entry.2 →
        entry.1 ∈ calculation.shares.keys := by
  have hiff := @exists_creditRewards_iff pool.id block.blockHeight calculation.shares
    calculation.rewards.entries db
  rw [← hiff, updateBalancesFrom]
  constructor
  · rintro ⟨result, h⟩
    split at h
    · cases h
    · rename_i db' hcredits
      exact ⟨db', hcredits⟩
  · rintro ⟨db', hcredits⟩
    obtain ⟨now', hdiscard⟩ :=
      discardShares_none hs pool.id now db' calculation.shareCutOffDate
    rw [hcredits]
    exact ⟨_, hdiscard⟩

namespace PPLNSBFPaymentScheme

section scheme

variable (handler : PayoutHandler) (pool : PoolConfig) (now : Nat) (block : Block)
  (blockReward : ℚ) (db : Database)

/-- What is left for the shares. -/
def blockRewardForShares : ℚ := blockReward - blockFinderReward pool blockReward

/-- The shares that can be read for a block, the newest first. -/
def readableShares : List Share := (blockPages db.shares pool.id block pageSize).flatten

/-- The shares down to the one that fills the window. -/
def windowShares : List Share :=
  (windowScan handler (windowFactor pool)).consume 0 (readableShares pool block db)

/-- The variables of the calculation after a walk down the shares. -/
def filled : RewardState :=
  fill handler (windowFactor pool) (blockRewardForShares pool blockReward)
    (start pool block blockReward) (readableShares pool block db)

/-- The update ends, and the finder is credited its share at least. -/
def Settles : Prop :=
  ∃ result, updateBalances handler pool .none now block blockReward db = .ok result ∧
    (0 < blockFinderReward pool blockReward →
      ∃ amount, (block.miner, amount) ∈ result.1.credits.drop db.credits.length ∧
        blockFinderReward pool blockReward ≤ amount)

/-- Shares are read with a window and with something to distribute, unless the newest of them fills
the window alone; and a finder that has something to get has a share in the window. -/
structure Payable : Prop where
  walks : ∀ share ∈ (readableShares pool block db).head?, windowFactor pool ≠ 0 ∧
    (0 < blockRewardForShares pool blockReward ∨ windowFactor pool ≤ score handler share)
  finder : 0 < blockFinderReward pool blockReward →
    block.miner ∈ (windowShares handler pool block db).map Share.miner

end scheme

variable {handler : PayoutHandler} {pool : PoolConfig} {now : Nat} {block : Block}
  {blockReward : ℚ} {db : Database}

/-! ### The rewards of the calculation -/

theorem amountAt_start (address : String) :
    (start pool block blockReward).rewards.amountAt address =
      if block.miner = address then blockFinderReward pool blockReward else 0 := by
  by_cases h : block.miner = address <;>
    simp [start, Dictionary.amountAt, Dictionary.find?, Dictionary.singleton, h]

theorem keys_shares_filled {address : String} :
    address ∈ (filled handler pool block blockReward db).shares.keys ↔
      address ∈ (windowShares handler pool block db).map Share.miner := by
  rw [filled, fill, mem_keys_foldl_addDifficulty]
  constructor
  · rintro (hnone | hmem)
    · cases hnone
    · exact hmem
  · exact Or.inr

/-- An address is rewarded for a share of the window, or as the finder. -/
theorem keys_rewards_filled {address : String}
    (h : address ∈ (filled handler pool block blockReward db).rewards.keys) :
    address = block.miner ∨ address ∈ (windowShares handler pool block db).map Share.miner := by
  rcases Dictionary.mem_keys_accumulateAll h with hstart | hparts
  · exact Or.inl (List.mem_singleton.mp hstart)
  · right
    rw [List.map_map] at hparts
    rw [windowShares, ← map_fst_cappedParts, List.map_map]
    exact hparts

theorem finderReward_le_filled :
    blockFinderReward pool blockReward ≤
      (filled handler pool block blockReward db).rewards.amountAt block.miner :=
  calc blockFinderReward pool blockReward
      = (start pool block blockReward).rewards.amountAt block.miner := by
        rw [amountAt_start, if_pos rfl]
    _ ≤ (filled handler pool block blockReward db).rewards.amountAt block.miner :=
        Dictionary.amountAt_le_accumulateAll _ _ _

/-- A finder without a share in the window has the reward of the finder and no other. -/
theorem amountAt_filled_of_notMem
    (h : block.miner ∉ (windowShares handler pool block db).map Share.miner) :
    (filled handler pool block blockReward db).rewards.amountAt block.miner =
      blockFinderReward pool blockReward := by
  have hparts : block.miner ∉ ((cappedParts (score handler) (windowFactor pool)
      (start pool block blockReward).accumulatedScore (readableShares pool block db)).map
        (reward (windowFactor pool) (blockRewardForShares pool blockReward))).map Prod.fst := by
    rw [List.map_map]
    rwa [windowShares, ← map_fst_cappedParts, List.map_map] at h
  calc (filled handler pool block blockReward db).rewards.amountAt block.miner
      = (start pool block blockReward).rewards.amountAt block.miner :=
        Dictionary.amountAt_accumulateAll_of_notMem _ hparts
    _ = blockFinderReward pool blockReward := by rw [amountAt_start, if_pos rfl]

theorem mem_entries_finder :
    (block.miner, (filled handler pool block blockReward db).rewards.amountAt block.miner) ∈
      (filled handler pool block blockReward db).rewards.entries := by
  have hkey : block.miner ∈ (filled handler pool block blockReward db).rewards.keys :=
    Dictionary.keys_subset_accumulateAll _ _ (List.mem_singleton.mpr rfl)
  obtain ⟨⟨address, amount⟩, hmem, rfl⟩ := List.mem_map.mp hkey
  rwa [Dictionary.amountAt_of_mem_entries hmem]

/-- Only a finder with something to get can lack a recorded difficulty. -/
theorem quotable_iff :
    (∀ entry ∈ (filled handler pool block blockReward db).rewards.entries, 0 < entry.2 →
        entry.1 ∈ (filled handler pool block blockReward db).shares.keys) ↔
      (0 < blockFinderReward pool blockReward →
        block.miner ∈ (windowShares handler pool block db).map Share.miner) := by
  constructor
  · intro h hpos
    exact keys_shares_filled.mp
      (h _ mem_entries_finder (hpos.trans_le finderReward_le_filled))
  · rintro h ⟨address, amount⟩ hmem hpos
    rw [keys_shares_filled]
    rcases keys_rewards_filled (List.mem_map_of_mem hmem) with rfl | hwindow
    · by_contra hnot
      have hamount : amount = blockFinderReward pool blockReward := by
        rw [← amountAt_filled_of_notMem hnot, Dictionary.amountAt_of_mem_entries hmem]
      exact hnot (h (hamount ▸ hpos))
    · exact hwindow

/-! ### Settlement -/

theorem calculateRewards_none_iff {st : RewardState} :
    (∃ n, calculateRewards pageSize handler pool .none now (windowFactor pool) block blockReward
        db.shares = .ok (st, n)) ↔
      thrown handler (windowFactor pool) (blockRewardForShares pool blockReward) 0
          (readableShares pool block db) = none ∧
        filled handler pool block blockReward db = st := by
  rw [calculateRewards, PageLoop.exists_readPages_none_iff now pageSize_pos,
    foldPages_processPage, processPage_eq_ok_iff (running_start _ _ _ _)]
  rfl

/-- The update ends when its walk throws nothing and its credits can be written. -/
theorem exists_updateBalances_iff :
    (∃ result, updateBalances handler pool .none now block blockReward db = .ok result) ↔
      Payable handler pool block blockReward db := by
  have hwalks := @thrown_eq_none_iff handler (windowFactor pool)
    (blockRewardForShares pool blockReward) 0 (readableShares pool block db)
  simp only [zero_add] at hwalks
  constructor
  · rintro ⟨result, h⟩
    rw [updateBalances] at h
    split at h
    · cases h
    · rename_i st n hcalc
      obtain ⟨hnone, rfl⟩ := calculateRewards_none_iff.mp ⟨n, hcalc⟩
      exact ⟨hwalks.mp hnone, quotable_iff.mp
        ((exists_updateBalancesFrom_iff pageSize_pos).mp ⟨result, h⟩)⟩
  · rintro ⟨hhead, hfinder⟩
    have hcalculates : ∃ n, calculateRewards pageSize handler pool .none now (windowFactor pool)
        block blockReward db.shares = .ok (filled handler pool block blockReward db, n) :=
      calculateRewards_none_iff.mpr ⟨hwalks.mpr hhead, rfl⟩
    obtain ⟨n, hcalc⟩ := hcalculates
    rw [updateBalances, hcalc]
    exact (exists_updateBalancesFrom_iff pageSize_pos).mpr (quotable_iff.mpr hfinder)

/-- An update that ends credits the finder. -/
theorem credits_finder {result : Database × Nat}
    (h : updateBalances handler pool .none now block blockReward db = .ok result)
    (hpos : 0 < blockFinderReward pool blockReward) :
    ∃ amount, (block.miner, amount) ∈ result.1.credits.drop db.credits.length ∧
      blockFinderReward pool blockReward ≤ amount := by
  obtain ⟨st, n, hcalc, hsettled⟩ := updateBalances_ok h
  obtain ⟨_, rfl⟩ := calculateRewards_none_iff.mp ⟨n, hcalc⟩
  refine ⟨(filled handler pool block blockReward db).rewards.amountAt block.miner, ?_,
    finderReward_le_filled⟩
  rw [hsettled.credits, List.drop_left, List.mem_filter]
  exact ⟨mem_entries_finder, by simpa using hpos.trans_le finderReward_le_filled⟩

def finderPool : PoolConfig := { id := "pool", address := "wallet" }

def finderBlock : Block :=
  { id := 1, poolId := "pool", blockHeight := 1, status := .confirmed, miner := "alice",
    reward := 10, created := 5 }

/-- The only share is that of another miner. -/
def finderDatabase : Database := { shares := [.unit 1 "bob" 4] }

theorem readableShares_finderDatabase :
    readableShares finderPool finderBlock finderDatabase = [.unit 1 "bob" 4] := by
  rw [readableShares, blockPages, sharePages_of_lt (by decide)]
  decide

open PayoutManager PayoutHandlerBase

/-- The recipients of a reward and the efforts of a block do not change what is payable. -/
theorem payable_withEfforts_iff :
    Payable handler pool (withEfforts handler pool block db) blockReward
        (updateBlockRewardBalances handler pool db (withEfforts handler pool block db)).1 ↔
      Payable handler pool block blockReward db := by
  have hshares := (onlyCredits_updateBlockRewardBalances handler pool db
    (withEfforts handler pool block db)).shares
  have hread : readableShares pool (withEfforts handler pool block db)
      (updateBlockRewardBalances handler pool db (withEfforts handler pool block db)).1 =
        readableShares pool block db := by
    rw [readableShares, hshares]
    rfl
  have hwindow : windowShares handler pool (withEfforts handler pool block db)
      (updateBlockRewardBalances handler pool db (withEfforts handler pool block db)).1 =
        windowShares handler pool block db := by
    rw [windowShares, hread]
    rfl
  constructor
  · rintro ⟨hwalks, hfinder⟩
    rw [hread] at hwalks
    rw [hwindow] at hfinder
    exact ⟨hwalks, hfinder⟩
  · rintro ⟨hwalks, hfinder⟩
    constructor
    · rwa [hread]
    · rwa [hwindow]

/-- A confirmed block that is not payable ends every cycle at its turn: nothing is written for it,
and no block behind it is reached. -/
theorem processBlocks_of_not_payable {rest : List Block} (hstatus : block.status = .confirmed)
    (h : ¬Payable handler pool block (blockRewardRemaining handler pool block) db) :
    ∃ e, processBlocks handler updateBalances pool .none now (block :: rest) db =
      (db, .error e) := by
  rw [processBlocks, runTx]
  cases hblock : processBlock handler updateBalances pool .none now block db with
  | error e => exact ⟨e, rfl⟩
  | ok result =>
      obtain ⟨_, db₁, hscheme, _⟩ := (processBlock_confirmed_eq_ok_iff hstatus).mp hblock
      exact absurd (payable_withEfforts_iff.mp (exists_updateBalances_iff.mp ⟨_, hscheme⟩)) h

end PPLNSBFPaymentScheme

end Miningcore
