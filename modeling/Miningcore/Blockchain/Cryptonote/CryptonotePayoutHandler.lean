import Miningcore.Payments.Transfers
import Miningcore.Foundation.DescendingSort

/-!
# Cryptonote payouts

Simple balances are paid in batches, balances with a payment id one by one. A
transfer that is too large for one transaction is tried again as a split
transfer. Each payment is persisted before the next transfer.
-/

namespace Miningcore

open Foundation PayoutHandlerBase

/-- The result of `transfer` or `transfer_split`, with the members the two response types read.
A member the wallet leaves out is null. -/
structure TransferResult where
  txHash : Option String := none
  feeList : Option (List Nat) := none
  txHashList : Option (List (Option String)) := none

/-- The replies for one transaction, and how the database fails behind it. -/
structure CryptonoteReplies where
  balance : RpcResponse Nat
  transfer : RpcResponse TransferResult
  transferSplit : RpcResponse TransferResult
  failure : Failures

/-- The configuration, what was detected of the wallet, and the decoding of addresses. -/
structure CryptonotePayoutConfig where
  smallestUnit : ℚ
  smallestUnit_pos : 0 < smallestUnit
  walletSupportsTransferSplit : Bool
  maximumDestinationPerTransfer : Option ℤ := none
  minimumPaymentToPaymentId : Option ℚ := none
  isValidAddress : String → Bool
  isIntegratedAddress : String → Bool

namespace CryptonotePayoutHandler

def paymentIdHexLength : Nat := 64

/-- The wallet error of a transaction that would be too large. -/
def transactionTooLarge : Int := -4

/-- The parts before and behind the first separator. An id of the wrong length is ignored. -/
def extractAddressAndPaymentId (input : String) : String × Option String :=
  let address := String.ofList (input.toList.takeWhile (· ≠ '.'))
  match input.toList.dropWhile (· ≠ '.') with
  | [] => (address, none)
  | _ :: paymentId =>
      (address,
        if paymentId.length = paymentIdHexLength then some (String.ofList paymentId) else none)

/-- The transaction hash `transfer` returns. -/
def txHash (result : TransferResult) : Except Exception (Option String) := .ok result.txHash

/-- The first of the transaction hashes `transfer_split` returns. -/
def firstTxHash (result : TransferResult) : Except Exception (Option String) :=
  match result.feeList, result.txHashList with
  | none, _ => .error (.argument "source")
  | some _, none => .error (.argument "source")
  | some _, some [] => .error (.invalidOperation "Sequence contains no elements")
  | some _, some (txHash :: _) => .ok txHash

variable (config : CryptonotePayoutConfig) (pool : PoolConfig)

def ensureBalance (reply : RpcResponse Nat) (requiredAmount : ℚ) : Except Exception Bool :=
  if reply.error.isSome then .ok false
  else match reply.response with
    | none => .error .nullReference
    | some unlockedBalance =>
        .ok (decide (requiredAmount ≤ unlockedBalance / config.smallestUnit))

/-- The amount in the smallest units that is sent for a balance. -/
def sentAmount (balance : Balance) : ℚ :=
  ⌊balance.amount * config.smallestUnit⌋ / config.smallestUnit

/-- The destinations of a request, under the addresses of their balances. -/
def destinations : List Balance → Except Exception (List Transfer)
  | [] => .ok []
  | balance :: rest =>
      match toULong ⌊balance.amount * config.smallestUnit⌋, destinations rest with
      | .ok amount, .ok transfers =>
          .ok (⟨balance.address, amount / config.smallestUnit⟩ :: transfers)
      | .error e, _ => .error e
      | _, .error e => .error e

attribute [local irreducible] toULong in
theorem destinations_cons (balance : Balance) (rest : List Balance) :
    destinations config (balance :: rest) =
      match toULong ⌊balance.amount * config.smallestUnit⌋, destinations config rest with
      | .ok amount, .ok transfers =>
          .ok (⟨balance.address, amount / config.smallestUnit⟩ :: transfers)
      | .error e, _ => .error e
      | _, .error e => .error e := rfl

/-- `HandleTransferResponseAsync`; the flag is what it returns. -/
def handleTransferResponse (failure : Failures) (transfers : List Transfer)
    (response : RpcResponse TransferResult)
    (hash : TransferResult → Except Exception (Option String)) (balances : List Balance)
    (db : Database) : PayoutOutcome × Bool :=
  if response.error.isSome then (.nothingSent db none, false)
  else match response.response with
    | none => (⟨transfers, [], db, some .nullReference⟩, false)
    | some result =>
        match hash result with
        | .error e => (⟨transfers, [], db, some e⟩, false)
        | .ok txHash =>
            (.afterPersist transfers (balances.map (·, txHash)) db
              (persistPayments pool failure balances txHash db), true)

/-- One transaction for the given balances, of which those in `paid` are destinations. `splitHash`
is how the reply to a split transfer is read. -/
def payoutTransaction (replies : CryptonoteReplies)
    (splitHash : TransferResult → Except Exception (Option String)) (requiredAmount : ℚ)
    (paid balances : List Balance) (db : Database) : PayoutOutcome × Bool :=
  match ensureBalance config replies.balance requiredAmount with
  | .error e => (.nothingSent db (some e), false)
  | .ok false => (.nothingSent db none, false)
  | .ok true =>
      match destinations config paid with
      | .error e => (.nothingSent db (some e), false)
      | .ok transfers =>
          if transfers.length = 0 then (.nothingSent db none, true)
          else if (replies.transfer.error.map JsonRpcError.code) = some transactionTooLarge ∧
              config.walletSupportsTransferSplit = true then
            handleTransferResponse pool replies.failure transfers replies.transferSplit splitHash
              balances db
          else
            handleTransferResponse pool replies.failure transfers replies.transfer txHash balances
              db

def payoutBatch (replies : CryptonoteReplies) (balances : List Balance) (db : Database) :
    PayoutOutcome × Bool :=
  payoutTransaction config pool replies firstTxHash (balances.map Balance.amount).sum
    (balances.filter fun balance => 0 < balance.amount) balances db

/-- The reply to a split transfer is read as one to a transfer. -/
def payoutToPaymentId (replies : CryptonoteReplies) (balance : Balance) (db : Database) :
    PayoutOutcome × Bool :=
  payoutTransaction config pool replies txHash balance.amount [balance] [balance] db

/-- A loop over transactions that ends with the first one that is not accepted. -/
def payoutEach {α : Type} (pay : CryptonoteReplies → α → Database → PayoutOutcome × Bool)
    (replies : Nat → CryptonoteReplies) : Nat → List α → Database → PayoutOutcome
  | _, [], db => .nothingSent db none
  | i, x :: rest, db =>
      let (outcome, accepted) := pay (replies i) x db
      if outcome.thrown.isSome ∨ accepted = false then outcome
      else (payoutEach pay replies (i + 1) rest outcome.db).after outcome.transfers
        outcome.persisted

def isSimple (balance : Balance) : Bool :=
  let (address, paymentId) := extractAddressAndPaymentId balance.address
  paymentId.isNone && !config.isIntegratedAddress address

/-- The balances that are paid in batches, largest first. -/
def simpleBalances (balances : List Balance) : List Balance :=
  sortDescending Balance.amount ((balances.filter fun balance =>
    config.isValidAddress (extractAddressAndPaymentId balance.address).1).filter (isSimple config))

/-- The balances that are paid one by one. The rows differ, so that `Except` just filters them. -/
def paymentIdBalances (balances : List Balance) : List Balance :=
  ((balances.filter fun balance =>
    config.isValidAddress (extractAddressAndPaymentId balance.address).1).filter
      (· ∉ simpleBalances config balances)).filter fun balance =>
        config.minimumPaymentToPaymentId.getD pool.minimumPayment ≤ balance.amount

def pageSize : Int := config.maximumDestinationPerTransfer.getD 15

/-- `PayoutAsync`; `info` replies with the number of peers. -/
def payout (info : RpcResponse Nat) (pageReplies paymentIdReplies : Nat → CryptonoteReplies)
    (balances : List Balance) (db : Database) : PayoutOutcome :=
  if info.error.isSome ∨ info.response.getD 0 < 2 then .nothingSent db none
  else
    let outcome := payoutEach (payoutBatch config pool) pageReplies 0
      (skipTakePages (pageSize config) (simpleBalances config balances)) db
    if outcome.thrown.isSome then outcome
    else (payoutEach (payoutToPaymentId config pool) paymentIdReplies 0
      (paymentIdBalances config pool balances) outcome.db).after outcome.transfers
        outcome.persisted

end CryptonotePayoutHandler

end Miningcore
