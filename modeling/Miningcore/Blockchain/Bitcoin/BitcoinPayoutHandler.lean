import Miningcore.Payments.Transfers

/-!
# Bitcoin payouts

One `sendmany` for all balances, or a `sendtoaddress` for each of them where the
daemon's `sendmany` is broken.
-/

namespace Miningcore

open Foundation PayoutHandlerBase

/-- `RPC_WALLET_UNLOCK_NEEDED`. -/
def rpcWalletUnlockNeeded : Int := -13

structure BitcoinPayoutConfig where
  payoutDecimalPlaces : ℤ := 4
  hasBrokenSendMany : Bool := false
  walletPassword : Option String := none

/-- The replies of the daemon; that of `sendmany` may depend on whether the wallet was unlocked. -/
structure BitcoinWallet where
  sendMany : Bool → RpcResponse String
  walletPassphrase : RpcResponse Unit
  sendToAddress : String → ℚ → RpcResponse String

/-- A call that needs an unlocked wallet: it is tried again once the wallet could be unlocked. The
result is what an accepted call has returned, or whether the wallet stays locked. -/
def callUnlocked (walletPassword : Option String) (call : Bool → RpcResponse String)
    (walletPassphrase : RpcResponse Unit) : Except Bool (Option String) :=
  match (call false).error with
  | none => .ok (call false).response
  | some error =>
      if error.code ≠ rpcWalletUnlockNeeded then .error false
      else if isNullOrEmpty walletPassword ∨ walletPassphrase.error.isSome then .error true
      else match (call true).error with
        | none => .ok (call true).response
        | some _ => .error false

namespace BitcoinPayoutHandler

variable (config : BitcoinPayoutConfig) (wallet : BitcoinWallet) (pool : PoolConfig)

/-- The worker of the fallback for one amount; what it returns is a transaction id. -/
def sendToAddress (amount : String × ℚ) : Option String :=
  let result := wallet.sendToAddress amount.1 amount.2
  if result.error.isSome ∨ isNullOrEmpty result.response then none else result.response

/-- The balances the fallback has paid, with the rounded amounts. -/
def successBalances (amounts : List (String × ℚ)) : List (Balance × Option String) :=
  amounts.filterMap fun amount =>
    (sendToAddress wallet amount).map fun txId => (⟨pool.id, amount.1, amount.2⟩, some txId)

/-- `PayoutAsync`. `cancelledAfter` is when the token stops the workers of the fallback, `failure`
how the database fails. -/
def payout (cancelledAfter : Option Nat) (failure : Failures) (balances : List Balance)
    (db : Database) : PayoutOutcome :=
  match payableAmounts (mathRound config.payoutDecimalPlaces) balances with
  | .error e => .nothingSent db (some e)
  | .ok amounts =>
      if amounts.length = 0 then .nothingSent db none
      else if config.hasBrokenSendMany = false then
        match callUnlocked config.walletPassword wallet.sendMany wallet.walletPassphrase with
        | .error _ => .nothingSent db none
        | .ok txId =>
            .afterPersist (amounts.map fun amount => ⟨amount.1, amount.2⟩)
              (balances.map (·, txId)) db (persistPayments pool failure balances txId db)
      else
        let sent := (taken cancelledAfter amounts).filter fun amount =>
          (wallet.sendToAddress amount.1 amount.2).error.isNone
        let transfers := sent.map fun amount => (⟨amount.1, amount.2⟩ : Transfer)
        let successes := successBalances wallet pool (taken cancelledAfter amounts)
        if cancelledAfter.isSome then ⟨transfers, [], db, some .operationCanceled⟩
        else if successes.length = 0 then ⟨transfers, [], db, none⟩
        else
          .afterPersist transfers successes db
            (persistPaymentsByBalance pool failure successes db)

end BitcoinPayoutHandler

end Miningcore
