import Miningcore.Payments.PaymentSchemes.BalanceUpdate
import Mathlib.Tactic.Abel
import Miningcore.Payments.PaymentSchemes.PPLNS

/-!
# Reward recipients

What the distribution to the configured recipients credits, and what it leaves
of the block reward.
-/

namespace Miningcore

namespace PayoutHandlerBase

/-- The recipients that take part in the distribution. -/
def activeRecipients (pool : PoolConfig) : List RewardRecipient :=
  pool.rewardRecipients.filter fun recipient => 0 < recipient.percentage

def recipientAmount (block : Block) (recipient : RewardRecipient) : ℚ :=
  block.reward * (recipient.percentage / 100)

/-- What the recipients and the reserve leave of the block reward. -/
def blockRewardRemaining (handler : PayoutHandler) (pool : PoolConfig) (block : Block) : ℚ :=
  block.reward - ((activeRecipients pool).map (recipientAmount block)).sum -
    handler.staticTransactionFeeReserve

/-- The credits of the distribution; the pool wallet is not credited. -/
def recipientCredits (pool : PoolConfig) (block : Block) : List (String × ℚ) :=
  ((activeRecipients pool).filter fun recipient => recipient.address ≠ pool.address).map
    fun recipient => (recipient.address, recipientAmount block recipient)

theorem onlyCredits_creditRecipient (pool : PoolConfig) (block : Block) (state : Database × ℚ)
    (recipient : RewardRecipient) :
    OnlyCredits state.1 (creditRecipient pool block state recipient).1 := by
  rw [creditRecipient]
  split
  · exact onlyCredits_addAmount _ _ _ _ _
  · exact .refl _

theorem foldl_creditRecipient (pool : PoolConfig) (block : Block) (l : List RewardRecipient)
    (state : Database × ℚ) :
    OnlyCredits state.1 (l.foldl (creditRecipient pool block) state).1 ∧
      (l.foldl (creditRecipient pool block) state).2 =
        state.2 - (l.map (recipientAmount block)).sum ∧
      (l.foldl (creditRecipient pool block) state).1.credits = state.1.credits ++
        (l.filter fun recipient => recipient.address ≠ pool.address).map
          fun recipient => (recipient.address, recipientAmount block recipient) := by
  induction l generalizing state with
  | nil => exact ⟨.refl _, by simp, by simp⟩
  | cons recipient l ih =>
      obtain ⟨honly, hrem, hcredits⟩ := ih (creditRecipient pool block state recipient)
      refine ⟨(onlyCredits_creditRecipient pool block state recipient).trans honly, ?_, ?_⟩
      · rw [List.foldl_cons, hrem, List.map_cons, List.sum_cons, creditRecipient]
        split <;> simp only [recipientAmount] <;> abel
      · rw [List.foldl_cons, hcredits, creditRecipient]
        split
        · rename_i hne
          simp [hne, recipientAmount]
        · rename_i heq
          simp [not_not.mp heq]

theorem onlyCredits_updateBlockRewardBalances (handler : PayoutHandler) (pool : PoolConfig)
    (db : Database) (block : Block) :
    OnlyCredits db (updateBlockRewardBalances handler pool db block).1 :=
  (foldl_creditRecipient pool block (activeRecipients pool) (db, block.reward)).1

theorem updateBlockRewardBalances_snd (handler : PayoutHandler) (pool : PoolConfig)
    (db : Database) (block : Block) :
    (updateBlockRewardBalances handler pool db block).2 =
      blockRewardRemaining handler pool block := by
  rw [blockRewardRemaining, updateBlockRewardBalances]
  simp only [(foldl_creditRecipient pool block _ _).2.1]
  rfl

theorem credits_updateBlockRewardBalances (handler : PayoutHandler) (pool : PoolConfig)
    (db : Database) (block : Block) :
    (updateBlockRewardBalances handler pool db block).1.credits =
      db.credits ++ recipientCredits pool block :=
  (foldl_creditRecipient pool block (activeRecipients pool) (db, block.reward)).2.2

end PayoutHandlerBase

end Miningcore

/-!
## The payout manager

The transaction in which a classified block is processed, and the loop over all
blocks a cycle has classified.
-/

namespace Miningcore

open Foundation BlockRepository ShareRepository

namespace PayoutManager

/-- The point in time from which the effort of a block counts. -/
def effortFrom (blocks : List Block) (poolId : String) (block : Block) : DateTime :=
  ((getBlockBefore blocks poolId [.confirmed, .orphaned, .pending] block.created).map
    Block.created).getD 0

def calculateBlockEffort (handler : PayoutHandler) (pool : PoolConfig) (ct : CancellationToken)
    (now : Nat) (block : Block) (db : Database) : Except Exception Block :=
  match ct.throwIfCancellationRequested now with
  | .error e => .error e
  | .ok () =>
      .ok { block with
        effort := (getEffectiveAccumulatedShareDifficultyBetween db.shares pool.id
          (effortFrom db.blocks pool.id block) block.created).map handler.adjustBlockEffort }

def calculateMinerEffort (handler : PayoutHandler) (pool : PoolConfig) (ct : CancellationToken)
    (now : Nat) (block : Block) (db : Database) : Except Exception Block :=
  match ct.throwIfCancellationRequested now with
  | .error e => .error e
  | .ok () =>
      .ok { block with
        minerEffort := (getMinerShareDifficultyBetween db.shares pool.id block.miner
          (effortFrom db.blocks pool.id block) block.created).map handler.adjustBlockEffort }

/-- Fills the efforts of a block if empty. -/
def fillEfforts (handler : PayoutHandler) (pool : PoolConfig) (ct : CancellationToken)
    (now : Nat) (block : Block) (db : Database) : Except Exception Block :=
  match (if block.effort.isSome then .ok block
      else calculateBlockEffort handler pool ct now block db) with
  | .error e => .error e
  | .ok block =>
      if block.minerEffort.isSome then .ok block
      else calculateMinerEffort handler pool ct (now + 1) block db

/-- The transaction of one classified block. -/
def processBlock (handler : PayoutHandler) (scheme : PayoutScheme) (pool : PoolConfig)
    (ct : CancellationToken) (now : Nat) (block : Block) (db : Database) :
    Except Exception (Database × Nat) :=
  match fillEfforts handler pool ct now block db with
  | .error e => .error e
  | .ok block =>
      match block.status with
      | .confirmed =>
          let (db, blockReward) := PayoutHandlerBase.updateBlockRewardBalances handler pool db block
          match scheme handler pool ct (now + 2) block blockReward db with
          | .error e => .error e
          | .ok (db, now) => .ok ({ db with blocks := updateBlock db.blocks block }, now)
      | .orphaned | .pending => .ok ({ db with blocks := updateBlock db.blocks block }, now + 2)

/-- The loop over the classified blocks; the first exception ends the cycle. -/
def processBlocks (handler : PayoutHandler) (scheme : PayoutScheme) (pool : PoolConfig)
    (ct : CancellationToken) : Nat → List Block → Database → Database × Except Exception Nat
  | now, [], db => (db, .ok now)
  | now, block :: rest, db =>
      match runTx db (processBlock handler scheme pool ct now block) with
      | (db, .error e) => (db, .error e)
      | (db, .ok now) => processBlocks handler scheme pool ct now rest db

/-- `classify` is what the handler makes of the pending blocks. The blocks it returns are processed
in the order of their creation. -/
def updatePoolBalances (handler : PayoutHandler) (scheme : PayoutScheme) (pool : PoolConfig)
    (ct : CancellationToken) (now : Nat)
    (classify : List Block → Except Exception (List Block)) (db : Database) :
    Database × Except Exception Nat :=
  match classify (getPendingBlocksForPool db.blocks pool.id) with
  | .error e => (db, .error e)
  | .ok updatedBlocks =>
      processBlocks handler scheme pool ct now
        (updatedBlocks.insertionSort fun a b => a.created ≤ b.created) db

end PayoutManager

end Miningcore

/-!
## The transaction of a block

What the transaction of one classified block does to the database, for any
payment scheme and for an uncancelled PPLNS settlement.
-/

namespace Miningcore

open Foundation WindowCalculation PayoutHandlerBase

namespace PayoutManager

variable {handler : PayoutHandler} {pool : PoolConfig} {ct : CancellationToken} {now : Nat}
  {block : Block} {db : Database}

/-- The calls that fill the efforts of a block do not see the token. -/
def EffortsUnseen (ct : CancellationToken) (now : Nat) (block : Block) : Prop :=
  (block.effort = none → ct.isCancellationRequested now = false) ∧
    (block.minerEffort = none → ct.isCancellationRequested (now + 1) = false)

/-- The block with its efforts filled. -/
def withEfforts (handler : PayoutHandler) (pool : PoolConfig) (block : Block) (db : Database) :
    Block :=
  { block with
    effort := if block.effort.isSome then block.effort
      else (ShareRepository.getEffectiveAccumulatedShareDifficultyBetween db.shares pool.id
        (effortFrom db.blocks pool.id block) block.created).map handler.adjustBlockEffort
    minerEffort := if block.minerEffort.isSome then block.minerEffort
      else (ShareRepository.getMinerShareDifficultyBetween db.shares pool.id block.miner
        (effortFrom db.blocks pool.id block) block.created).map handler.adjustBlockEffort }

theorem fillEfforts_eq_ok_iff {result : Block} :
    fillEfforts handler pool ct now block db = .ok result ↔
      EffortsUnseen ct now block ∧ withEfforts handler pool block db = result := by
  obtain ⟨id, poolId, height, status, type, progress, effort, minerEffort, data, miner, reward,
    hash, created⟩ := block
  rcases effort with _ | effort <;> rcases minerEffort with _ | minerEffort <;>
    cases h₁ : ct.isCancellationRequested now <;>
    cases h₂ : ct.isCancellationRequested (now + 1) <;>
    simp [fillEfforts, calculateBlockEffort, calculateMinerEffort, EffortsUnseen, withEfforts,
      CancellationToken.throwIfCancellationRequested, effortFrom, h₁, h₂]

/-- The transaction of a confirmed block ends when its calls do not see the token and the scheme
ends. -/
theorem processBlock_confirmed_eq_ok_iff {scheme : PayoutScheme} {result : Database × Nat}
    (hstatus : block.status = .confirmed) :
    processBlock handler scheme pool ct now block db = .ok result ↔
      EffortsUnseen ct now block ∧
        ∃ db₁, scheme handler pool ct (now + 2) (withEfforts handler pool block db)
            (blockRewardRemaining handler pool block)
            (updateBlockRewardBalances handler pool db (withEfforts handler pool block db)).1 =
              .ok (db₁, result.2) ∧
          { db₁ with
            blocks := BlockRepository.updateBlock db₁.blocks
              (withEfforts handler pool block db) } = result.1 := by
  have hreward : blockRewardRemaining handler pool (withEfforts handler pool block db) =
      blockRewardRemaining handler pool block := rfl
  have hconfirmed : (withEfforts handler pool block db).status = .confirmed := hstatus
  rw [processBlock]
  cases hfill : fillEfforts handler pool ct now block db with
  | error e =>
      have hnot : ¬EffortsUnseen ct now block := fun h => by
        simp [fillEfforts_eq_ok_iff.mpr ⟨h, rfl⟩] at hfill
      simp [hnot]
  | ok filled =>
      obtain ⟨hunseen, rfl⟩ := fillEfforts_eq_ok_iff.mp hfill
      simp only [hconfirmed, updateBlockRewardBalances_snd, hreward, hunseen, true_and]
      cases scheme handler pool ct (now + 2) (withEfforts handler pool block db)
          (blockRewardRemaining handler pool block)
          (updateBlockRewardBalances handler pool db (withEfforts handler pool block db)).1 with
      | error e => simp
      | ok r => simp [Prod.ext_iff, and_comm]

theorem effortsUnseen_none (now : Nat) (block : Block) : EffortsUnseen .none now block :=
  ⟨fun _ => rfl, fun _ => rfl⟩

/-- The transaction of a block that is not confirmed writes its row. -/
theorem processBlock_eq_ok_of_ne {scheme : PayoutScheme} {result : Database × Nat}
    (hstatus : block.status ≠ .confirmed)
    (h : processBlock handler scheme pool ct now block db = .ok result) :
    result.1 = { db with
      blocks := BlockRepository.updateBlock db.blocks (withEfforts handler pool block db) } := by
  rw [processBlock] at h
  split at h
  · cases h
  · rename_i filled hfill
    obtain ⟨_, rfl⟩ := fillEfforts_eq_ok_iff.mp hfill
    split at h
    · rename_i hconfirmed
      exact absurd hconfirmed hstatus
    · cases h
      rfl
    · cases h
      rfl

/-- A scheme that writes credits and deletes shares, and nothing else. -/
def SettlesOnly (scheme : PayoutScheme) : Prop :=
  ∀ ⦃handler pool ct now block blockReward db result⦄,
    scheme handler pool ct now block blockReward db = .ok result →
      ∃ calculation, Settled pool.id db result.1 calculation

theorem settlesOnly_PPLNS : SettlesOnly PPLNSPaymentScheme.updateBalances := by
  intro handler pool ct now block blockReward db result h
  obtain ⟨st, _, _, hsettled⟩ := PPLNSPaymentScheme.updateBalances_ok h
  exact ⟨st.calculation, hsettled⟩

theorem blocks_processBlock {scheme : PayoutScheme} (hscheme : SettlesOnly scheme)
    {result : Database × Nat}
    (h : processBlock handler scheme pool ct now block db = .ok result) :
    result.1.blocks =
      BlockRepository.updateBlock db.blocks (withEfforts handler pool block db) := by
  by_cases hstatus : block.status = .confirmed
  · obtain ⟨_, db₁, hok, hresult⟩ := (processBlock_confirmed_eq_ok_iff hstatus).mp h
    obtain ⟨_, hsettled⟩ := hscheme hok
    have hblocks : db₁.blocks = db.blocks :=
      hsettled.blocks.trans (onlyCredits_updateBlockRewardBalances handler pool db _).blocks
    rw [← hresult, ← hblocks]
  · rw [processBlock_eq_ok_of_ne hstatus h]

/-! ## Uncancelled PPLNS settlements -/

/-- The shares a PPLNS settlement of a block reads when nothing stops it. -/
abbrev PPLNSRows (pool : PoolConfig) (block : Block) (shares : List Share) : List Share :=
  (blockPages shares pool.id block PPLNSPaymentScheme.pageSize).flatten

/-- The credits of an uncancelled PPLNS settlement over the given rows. -/
def PPLNSCredits (handler : PayoutHandler) (pool : PoolConfig) (block : Block)
    (rows : List Share) : List (String × ℚ) :=
  recipientCredits pool block ++
    (fill handler (windowFactor pool) (blockRewardRemaining handler pool block)
      (PPLNSPaymentScheme.start (blockRewardRemaining handler pool block))
      rows).rewards.entries.filter fun entry => 0 < entry.2

theorem exists_processBlock_PPLNS_iff (hstatus : block.status = .confirmed) :
    (∃ result, processBlock handler PPLNSPaymentScheme.updateBalances pool .none now block db =
        .ok result) ↔
      thrown handler (windowFactor pool) (blockRewardRemaining handler pool block) 0
        (PPLNSRows pool block db.shares) = none := by
  have hshares := (onlyCredits_updateBlockRewardBalances handler pool db
    (withEfforts handler pool block db)).shares
  constructor
  · rintro ⟨result, h⟩
    obtain ⟨_, db₁, hok, _⟩ := (processBlock_confirmed_eq_ok_iff hstatus).mp h
    have hnone := (PPLNSPaymentScheme.settled_updateBalances_none hok).1
    rw [hshares] at hnone
    exact hnone
  · intro hnone
    obtain ⟨⟨db₁, n⟩, hok⟩ : ∃ result,
        PPLNSPaymentScheme.updateBalances handler pool .none (now + 2)
        (withEfforts handler pool block db) (blockRewardRemaining handler pool block)
        (updateBlockRewardBalances handler pool db (withEfforts handler pool block db)).1 =
          .ok result := by
      apply PPLNSPaymentScheme.exists_updateBalances_none
      rw [hshares]
      exact hnone
    exact ⟨(_, n), (processBlock_confirmed_eq_ok_iff hstatus).mpr
      ⟨effortsUnseen_none now block, db₁, hok, rfl⟩⟩

theorem processBlock_PPLNS_ok (hstatus : block.status = .confirmed) {result : Database × Nat}
    (h : processBlock handler PPLNSPaymentScheme.updateBalances pool .none now block db =
      .ok result) :
    result.1.credits =
        db.credits ++ PPLNSCredits handler pool block (PPLNSRows pool block db.shares) ∧
      result.1.shares = sharesAfter db.shares pool.id
        (windowCutoff handler (windowFactor pool) 0 (PPLNSRows pool block db.shares)) := by
  have honly := onlyCredits_updateBlockRewardBalances handler pool db
    (withEfforts handler pool block db)
  obtain ⟨_, db₁, hok, hresult⟩ := (processBlock_confirmed_eq_ok_iff hstatus).mp h
  have hsettled := (PPLNSPaymentScheme.settled_updateBalances_none hok).2
  rw [honly.shares] at hsettled
  have hstart : (PPLNSPaymentScheme.start
    (blockRewardRemaining handler pool block)).shareCutOffDate = none := rfl
  have hcutoff := shareCutOffDate_fill handler (windowFactor pool)
    (blockRewardRemaining handler pool block) hstart (PPLNSRows pool block db.shares)
  rw [← hresult]
  constructor
  · rw [PPLNSCredits, ← List.append_assoc, ← credits_updateBlockRewardBalances handler pool db]
    exact hsettled.credits
  · have hshares := hsettled.shares
    rw [honly.shares] at hshares
    exact hshares.trans (congrArg (sharesAfter db.shares pool.id) hcutoff)

end PayoutManager

end Miningcore
