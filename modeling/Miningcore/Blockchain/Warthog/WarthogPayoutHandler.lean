import Miningcore.Payments.Transfers

/-!
# Warthog payouts

Each balance is paid by a transaction of its own. Workers post them in parallel;
the payments are persisted once all workers have ended.
-/

namespace Miningcore

open Foundation PayoutHandlerBase

structure WarthogSendTransactionResponse where
  error : Option String := none
  txHash : Option String := none

/-- What becomes of a worker: the reply or the exception it gets, and whether the node has accepted
its transaction. -/
structure WarthogSend where
  accepted : Bool
  reply : Except Exception WarthogSendTransactionResponse

structure WarthogPayoutConfig where
  keepTransactionFees : Option Bool := none
  maximumTransactionFees : ℚ := 0

namespace WarthogPayoutHandler

def smallestUnit : ℚ := 10 ^ 8

variable (config : WarthogPayoutConfig) (send : String × ℚ → WarthogSend) (pool : PoolConfig)

/-- The amount of a transaction: the fees are taken off unless the pool pays them. -/
def transferAmount (amount : ℚ) : ℚ :=
  let fees := config.maximumTransactionFees / smallestUnit
  let amount := if config.keepTransactionFees = some false then amount
    else if fees < amount then amount - fees else amount
  ⌊amount * smallestUnit⌋ / smallestUnit

/-- The transaction id a worker ends with, if it does not throw. -/
def workerTxId (amount : String × ℚ) : Option String :=
  match (send amount).reply with
  | .error _ => none
  | .ok response =>
      if response.error.isSome ∨ isNullOrEmpty response.txHash then none else response.txHash

/-- The transfer of a worker, if it was accepted. -/
def transfer (amount : String × ℚ) : Option Transfer :=
  if (send amount).accepted then some ⟨amount.1, transferAmount config amount.2⟩ else none

/-- The balance a worker has paid. -/
def successBalance (amount : String × ℚ) : Option (Balance × Option String) :=
  (workerTxId send amount).map fun txId => (⟨pool.id, amount.1, amount.2⟩, some txId)

/-- `PayoutAsync`. `validation` is what the validation of the addresses throws. -/
def payout (validation : Option Exception) (walletBalance : Except Exception ℚ)
    (cancelledAfter : Option Nat) (failure : Failures) (balances : List Balance) (db : Database) :
    PayoutOutcome :=
  match payableAmounts .ok balances with
  | .error e => .nothingSent db (some e)
  | .ok amounts =>
      if amounts.length = 0 then .nothingSent db none
      else match validation, walletBalance with
        | some e, _ => .nothingSent db (some e)
        | none, .error e => .nothingSent db (some e)
        | none, .ok walletBalance =>
            -- bail if the balance does not satisfy the payments
            if walletBalance / smallestUnit < (amounts.map Prod.snd).sum then .nothingSent db none
            else
              let transfers := (taken cancelledAfter amounts).filterMap (transfer config send)
              let successes := (taken cancelledAfter amounts).filterMap (successBalance send pool)
              if cancelledAfter.isSome then ⟨transfers, [], db, some .operationCanceled⟩
              else if successes.length = 0 then ⟨transfers, [], db, none⟩
              else .afterPersist transfers successes db
                (persistPaymentsByBalance pool failure successes db)

end WarthogPayoutHandler

end Miningcore
