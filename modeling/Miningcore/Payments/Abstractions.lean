import Miningcore.Persistence.Repositories

/-!
# Payout handlers and cancellation

What the payment schemes see of a payout handler, and the distribution to the
reward recipients every handler inherits.

## Implementation notes

A cancellation token becomes cancelled at one tick and stays so. The payout code
counts a tick for every call that takes the token and for every share of a
calculation, so the tick ranges over all points between these.
-/

namespace Miningcore

structure CancellationToken where
  cancelAt : Option Nat
deriving DecidableEq

namespace CancellationToken

/-- The token that is never cancelled. -/
def none : CancellationToken := ⟨Option.none⟩

def isCancellationRequested (ct : CancellationToken) (now : Nat) : Bool :=
  match ct.cancelAt with
  | Option.none => false
  | some tick => decide (tick ≤ now)

/-- A call that takes the token throws when the token is already cancelled. -/
def throwIfCancellationRequested (ct : CancellationToken) (now : Nat) : Except Exception Unit :=
  if ct.isCancellationRequested now then .error .operationCanceled else .ok ()

@[simp] theorem isCancellationRequested_none (now : Nat) :
    none.isCancellationRequested now = false := rfl

@[simp] theorem throwIfCancellationRequested_none (now : Nat) :
    none.throwIfCancellationRequested now = .ok () := rfl

end CancellationToken

structure RewardRecipient where
  address : String
  percentage : ℚ
deriving DecidableEq

/-- The options of the payment schemes; a number missing from the section is zero. -/
structure PayoutSchemeConfig where
  factor : ℚ := 0
  blockFinderPercentage : ℚ := 0
deriving DecidableEq

structure PoolConfig where
  id : String
  address : String
  rewardRecipients : List RewardRecipient := []
  payoutSchemeConfig : Option PayoutSchemeConfig := none
  minimumPayment : ℚ := 0
  coinSymbol : String := ""
deriving DecidableEq

/-- What the schemes use of a payout handler. The reserve is the constant the override of
`UpdateBlockRewardBalancesAsync` deducts, zero where the base method is not overridden. -/
structure PayoutHandler where
  adjustShareDifficulty : ℚ → ℚ
  adjustBlockEffort : ℚ → ℚ
  staticTransactionFeeReserve : ℚ := 0
  adjustShareDifficulty_nonneg : ∀ difficulty, 0 ≤ difficulty →
    0 ≤ adjustShareDifficulty difficulty

/-- The handler that leaves difficulties and efforts as they are. -/
def PayoutHandler.base : PayoutHandler where
  adjustShareDifficulty := id
  adjustBlockEffort := id
  adjustShareDifficulty_nonneg _ h := h

/-- The score of a share: its adjusted difficulty relative to the network difficulty. -/
def score (handler : PayoutHandler) (share : Share) : ℚ :=
  handler.adjustShareDifficulty share.difficulty / share.networkDifficulty

theorem score_nonneg (handler : PayoutHandler) (share : Share) : 0 ≤ score handler share :=
  div_nonneg (handler.adjustShareDifficulty_nonneg _ share.difficulty_nonneg)
    share.networkDifficulty_pos.le

/-- `UpdateBalancesAsync` of a payment scheme, which also returns the tick it ends at. -/
abbrev PayoutScheme :=
  PayoutHandler → PoolConfig → CancellationToken → Nat → Block → ℚ → Database →
    Except Exception (Database × Nat)

namespace PayoutHandlerBase

/-- One reward recipient: the amount is always deducted, but transfers from the pool wallet to
itself are skipped. -/
def creditRecipient (pool : PoolConfig) (block : Block) (state : Database × ℚ)
    (recipient : RewardRecipient) : Database × ℚ :=
  let amount := block.reward * (recipient.percentage / 100)
  let blockRewardRemaining := state.2 - amount
  if recipient.address ≠ pool.address then
    (BalanceRepository.addAmount state.1 pool.id recipient.address amount
      (.rewardForBlock block.blockHeight), blockRewardRemaining)
  else (state.1, blockRewardRemaining)

def updateBlockRewardBalances (handler : PayoutHandler) (pool : PoolConfig) (db : Database)
    (block : Block) : Database × ℚ :=
  let (db, blockRewardRemaining) :=
    (pool.rewardRecipients.filter fun recipient => 0 < recipient.percentage).foldl
      (creditRecipient pool block) (db, block.reward)
  (db, blockRewardRemaining - handler.staticTransactionFeeReserve)

end PayoutHandlerBase

end Miningcore
