import Miningcore.Payments.Transfers

/-!
# Pearl payouts

Balances are paid one after the other. The payments are persisted behind the
loop, and each iteration starts with a look at the token.
-/

namespace Miningcore

open Foundation PayoutHandlerBase

/-- The reply to `sendfrom`, and whether the wallet has accepted the transfer. -/
structure PearlSend where
  accepted : Bool
  reply : RpcResponse String

def isNullOrWhiteSpace (text : Option String) : Bool := (text.getD "").toList.all Char.isWhitespace

namespace PearlPayoutHandler

variable (send : Balance → PearlSend)

/-- The transfer of a balance, if it was accepted. Nothing is sent for an amount that is not
positive. -/
def transfer (balance : Balance) : Option Transfer :=
  let amount := roundDecimals 8 balance.amount
  if amount ≤ 0 then none
  else if (send balance).accepted then some ⟨balance.address, amount⟩ else none

/-- The entry of a balance that was paid. -/
def successBalance (balance : Balance) : Option (Balance × Option String) :=
  let reply := (send balance).reply
  if roundDecimals 8 balance.amount ≤ 0 then none
  else if reply.error.isSome ∨ isNullOrWhiteSpace reply.response then none
  else some (balance, reply.response)

/-- `PayoutAsync`. The look at the token throws in the iteration `cancelledAfter` counts, if the
loop gets there. -/
def payout (walletPassphrase : Option String) (pool : PoolConfig) (cancelledAfter : Option Nat)
    (failure : Failures) (balances : List Balance) (db : Database) : PayoutOutcome :=
  if balances.length = 0 then .nothingSent db none
  else if isNullOrWhiteSpace walletPassphrase then
    .nothingSent db (some (.invalidOperation
      "Pearl wallet passphrase is missing in paymentProcessing.extra.walletPassphrase"))
  else
    let transfers := (taken cancelledAfter balances).filterMap (transfer send)
    let successes := (taken cancelledAfter balances).filterMap (successBalance send)
    if (taken cancelledAfter balances).length < balances.length then
      ⟨transfers, [], db, some .operationCanceled⟩
    else if successes.length = 0 then ⟨transfers, [], db, none⟩
    else .afterPersist transfers successes db (persistPaymentsByBalance pool failure successes db)

end PearlPayoutHandler

end Miningcore
