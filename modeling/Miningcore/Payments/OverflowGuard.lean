import Miningcore.Payments.FinderShares
import Miningcore.Payments.RewardConservation

/-!
# The guard of the window calculation

Both schemes over a score window throw when nothing is left of the block reward before the window is
full. A share takes the part of the pot that its score fills of the window, so a positive pot lasts
until the window is full; what the reward recipients and the fee reserve leave of a block reward
need not be positive.
-/

namespace Miningcore

open Foundation WindowCalculation ShareRepository PayoutHandlerBase

/-- The exception of the guard. -/
def rewardExhausted : Exception := .overflow "blockRewardRemaining < 0"

/-- The newest share at or before the creation of a block. -/
def newestShare (shares : List Share) (poolId : String) (block : Block) : Option Share :=
  (sharesBefore shares poolId block.created true).head?

/-- There is something to distribute, unless no share is read or the newest one fills the window. -/
def LastsForWindow (handler : PayoutHandler) (pool : PoolConfig) (block : Block) (db : Database)
    (pot : ℚ) : Prop :=
  ∀ share ∈ newestShare db.shares pool.id block, 0 < pot ∨ windowFactor pool ≤ score handler share

namespace WindowCalculation

variable {handler : PayoutHandler} {window pot : ℚ}

/-- With a positive window nothing but the guard throws, and only on an empty pot. -/
theorem thrown_eq_rewardExhausted_iff (hw : 0 < window) {l : List Share} :
    thrown handler window pot 0 l = some rewardExhausted ↔
      ¬∀ share ∈ l.head?, 0 < pot ∨ window ≤ score handler share := by
  cases l with
  | nil => simp [thrown]
  | cons share l =>
      simp only [thrown, hw.ne', if_false, zero_add, List.head?_cons, Option.mem_some_iff,
        forall_eq', not_or, not_lt, not_le]
      split
      · rename_i hguard
        exact iff_of_true rfl hguard
      · rename_i hguard
        exact iff_of_false (by simp) hguard

/-- No run of the page loop meets the guard, whatever the token does, exactly when the first share
finds something to distribute or fills the window. -/
theorem readPages_ne_rewardExhausted_iff {shares : List Share} {poolId : String}
    {before : DateTime} {inclusive : Bool} {pageSize : Nat} {st : RewardState}
    (hs : 0 < pageSize) (hw : 0 < window) (hst : Running window pot st)
    (hacc : st.accumulatedScore = 0) :
    (∀ ct now, PageLoop.readPages (processPage handler window pot) RewardState.done ct shares
        poolId pageSize now before inclusive st ≠ .error rewardExhausted) ↔
      ∀ share ∈ (sharesBefore shares poolId before inclusive).head?,
        0 < pot ∨ window ≤ score handler share := by
  have hwalk : PageLoop.foldPages (processPage handler window pot) RewardState.done st
        (sharePages shares poolId before inclusive pageSize) = .error rewardExhausted ↔
      ¬∀ share ∈ (sharesBefore shares poolId before inclusive).head?,
        0 < pot ∨ window ≤ score handler share := by
    rw [foldPages_processPage, processPage_eq hst, hacc, ← head?_flatten_sharePages _ _ _ _ hs,
      ← thrown_eq_rewardExhausted_iff hw]
    split
    · rename_i e hthrown
      rw [hthrown, Except.error.injEq, Option.some.injEq]
    · rename_i hthrown
      rw [hthrown]
      simp
  constructor
  · intro h
    by_contra hnot
    exact h .none 0 ((PageLoop.readPages_none_eq_error_iff 0 hs).mpr (hwalk.mpr hnot))
  · intro hlasts ct now herror
    rw [PageLoop.readPages_eq_scanPages _ _ _ hs] at herror
    rcases PageLoop.scanPages_error herror with hcancel | hfold
    · cases hcancel
    · exact hwalk.mp hfold hlasts

end WindowCalculation

/-- The calculation of PPLNS for what the handler leaves of a block reward never meets the guard. -/
def PPLNSPaymentScheme.GuardUnreached (handler : PayoutHandler) (pool : PoolConfig)
    (block : Block) (db : Database) : Prop :=
  ∀ ct now, calculateRewards pageSize handler pool ct now (windowFactor pool) block
    (updateBlockRewardBalances handler pool db block).2 db.shares ≠ .error rewardExhausted

/-- The calculation with a finder share never meets the guard either. -/
def PPLNSBFPaymentScheme.GuardUnreached (handler : PayoutHandler) (pool : PoolConfig)
    (block : Block) (db : Database) : Prop :=
  ∀ ct now, calculateRewards pageSize handler pool ct now (windowFactor pool) block
    (updateBlockRewardBalances handler pool db block).2 db.shares ≠ .error rewardExhausted

theorem PPLNSPaymentScheme.guardUnreached_iff {handler : PayoutHandler} {pool : PoolConfig}
    {block : Block} {db : Database} (hw : 0 < windowFactor pool) :
    GuardUnreached handler pool block db ↔
      LastsForWindow handler pool block db (blockRewardRemaining handler pool block) := by
  rw [GuardUnreached, updateBlockRewardBalances_snd]
  exact readPages_ne_rewardExhausted_iff pageSize_pos hw (running_start _ _) rfl

theorem PPLNSBFPaymentScheme.guardUnreached_iff {handler : PayoutHandler} {pool : PoolConfig}
    {block : Block} {db : Database} (hw : 0 < windowFactor pool) :
    GuardUnreached handler pool block db ↔
      LastsForWindow handler pool block db
        (blockRewardForShares pool (blockRewardRemaining handler pool block)) := by
  rw [GuardUnreached, updateBlockRewardBalances_snd]
  exact readPages_ne_rewardExhausted_iff pageSize_pos hw (running_start _ _ _ _) rfl

/-- The static reserve for transaction fees, in monero. -/
def CryptonoteConstants.staticTransactionFeeReserve : ℚ := 3 / 100

def CryptonotePayoutHandler.payoutHandler : PayoutHandler :=
  { PayoutHandler.base with
    staticTransactionFeeReserve := CryptonoteConstants.staticTransactionFeeReserve }

open PPLNSBFPaymentScheme (finderPool finderBlock finderDatabase)

/-- A block whose reward is the reserve. -/
def reserveBlock : Block := { finderBlock with reward := 3 / 100 }

end Miningcore
