import Miningcore.Blockchain.Cryptonote.TransferSettlement

/-!
# Double payments

Runs of payouts by the handlers that persist what a transfer call has returned.
No balance of a run is paid twice exactly when each accepted transfer of its
calls is settled before the call ends.
-/

namespace Miningcore

open Foundation PayoutHandlerBase

/-- A payout call, with everything its course depends on. -/
inductive TransferCall
  | bitcoin (config : BitcoinPayoutConfig) (wallet : BitcoinWallet) (cancelledAfter : Option Nat)
      (failure : Failures)
  | cryptonote (config : CryptonotePayoutConfig) (info : RpcResponse Nat)
      (pageReplies paymentIdReplies : Nat → CryptonoteReplies)

namespace TransferCall

/-- `PayoutAsync` of the handler. -/
def payout (pool : PoolConfig) :
    TransferCall → List Balance → Database → Option PayoutOutcome
  | bitcoin config wallet cancelledAfter failure => fun balances db =>
      some (BitcoinPayoutHandler.payout config wallet pool cancelledAfter failure balances db)
  | cryptonote config info pageReplies paymentIdReplies => fun balances db =>
      some (CryptonotePayoutHandler.payout config pool info pageReplies paymentIdReplies balances
        db)

/-- Each accepted transfer sends its balance as it is, its transaction id is where the handler
looks for it, and the database commits; or it sends nothing. -/
def IsSettled (pool : PoolConfig) : TransferCall → List Balance → Prop
  | bitcoin config wallet cancelledAfter failure =>
      BitcoinPayoutHandler.IsSettled config wallet cancelledAfter failure
  | cryptonote config info pageReplies paymentIdReplies =>
      CryptonotePayoutHandler.IsPayoutSettled config pool info pageReplies paymentIdReplies

variable {pool : PoolConfig} {call : TransferCall} {balances : List Balance} {db : Database}
  {outcome : PayoutOutcome}

theorem writesPersisted_payout (h : call.payout pool balances db = some outcome) :
    WritesPersisted pool db outcome := by
  cases call with
  | bitcoin config wallet cancelledAfter failure =>
      cases h
      exact BitcoinPayoutHandler.writesPersisted_payout
  | cryptonote config info pageReplies paymentIdReplies =>
      cases h
      exact CryptonotePayoutHandler.writesPersisted_payout

theorem balancesReduced_payout_iff (haddresses : (balances.map Balance.address).Nodup)
    (h : call.payout pool balances db = some outcome) :
    BalancesReduced pool db outcome ↔ call.IsSettled pool balances := by
  rw [balancesReduced_iff_settles (writesPersisted_payout h)]
  cases call with
  | bitcoin config wallet cancelledAfter failure =>
      cases h
      exact BitcoinPayoutHandler.settles_payout_iff haddresses
  | cryptonote config info pageReplies paymentIdReplies =>
      cases h
      exact CryptonotePayoutHandler.settles_payout_iff haddresses

end TransferCall

/-- The balance behind every accepted transfer of a run is reduced before the next payout if and
only if the calls of the run are settled. The key of the balances table makes them unique. -/
theorem balancesReduced_iff_isSettled (pool : PoolConfig) (cycles : List (PayoutCycle TransferCall))
    (db : Database) (hunique : UniqueBalances db) :
    (∀ record ∈ payoutRun (TransferCall.payout pool) pool cycles db,
        BalancesReduced pool record.before record.outcome) ↔
      ∀ record ∈ payoutRun (TransferCall.payout pool) pool cycles db,
        record.call.IsSettled pool record.balances := by
  apply forall₂_congr
  intro record hmem
  obtain ⟨haddresses, hpayout⟩ := of_mem_payoutRun
    (fun _ _ _ _ h => TransferCall.writesPersisted_payout h) hunique hmem
  exact TransferCall.balancesReduced_payout_iff haddresses hpayout

/-! ## A split transfer to an integrated address -/

namespace SplitTransfer

def pool : PoolConfig := { id := "pool", address := "wallet" }

def config : CryptonotePayoutConfig where
  smallestUnit := 10 ^ 12
  smallestUnit_pos := by norm_num
  walletSupportsTransferSplit := true
  isValidAddress _ := true
  isIntegratedAddress _ := true

/-- The replies of a wallet that accepts a transfer at once, or only a split transfer. -/
def replies (tooLarge : Bool) : CryptonoteReplies where
  balance := ⟨some (10 ^ 13), none⟩
  transfer := if tooLarge then ⟨none, some { code := -4 }⟩ else ⟨some { txHash := some "tx" }, none⟩
  transferSplit := ⟨some { feeList := some [1], txHashList := some [some "tx"] }, none⟩
  failure _ := none

def cycle (tooLarge : Bool) : PayoutCycle TransferCall where
  credits := []
  call := .cryptonote config ⟨some 8, none⟩ (fun _ => replies tooLarge) fun _ => replies tooLarge

def db : Database where
  balances := [⟨"pool", "a", 1⟩]

/-- The reply to the split transfer is not understood, and the same balance is sent again. -/
theorem paid_twice :
    UniqueBalances db ∧
    (payoutRun (TransferCall.payout pool) pool [cycle true, cycle true] db).map
      (fun record => record.outcome.transfers) = [[⟨"a", 1⟩], [⟨"a", 1⟩]] ∧
    ¬∀ record ∈ payoutRun (TransferCall.payout pool) pool [cycle true, cycle true] db,
      BalancesReduced pool record.before record.outcome := by
  decide +kernel

/-- A transfer that is not split is settled. -/
theorem isSettled_transfer :
    UniqueBalances db ∧
    ∀ record ∈ payoutRun (TransferCall.payout pool) pool [cycle false, cycle false] db,
      record.call.IsSettled pool record.balances :=
  ⟨by decide, (balancesReduced_iff_isSettled pool [cycle false, cycle false] db (by decide)).mp
    (by decide +kernel)⟩

end SplitTransfer

end Miningcore
