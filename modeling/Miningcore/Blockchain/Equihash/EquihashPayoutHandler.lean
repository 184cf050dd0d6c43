import Miningcore.Blockchain.Bitcoin.BitcoinPayoutHandler
import Miningcore.Extensions.HexParsing

/-!
# Equihash payouts

Balances are paid in pages. Each page is an operation the daemon carries out in
the background: the handler polls its status and persists the page when the
operation has succeeded.
-/

namespace Miningcore

open Foundation PayoutHandlerBase

inductive ZOperationStatus
  | queued
  | executing
  | success
  | cancelled
  | failed
  | undefined
deriving DecidableEq

namespace ZOperationStatus

/-- A cast of a number. -/
def ofNumber : Int → ZOperationStatus
  | 0 => .queued
  | 1 => .executing
  | 2 => .success
  | 3 => .cancelled
  | 4 => .failed
  | _ => .undefined

/-- The number of a name without regard to case. -/
def numberOf (name : List Char) : Option Nat :=
  let trimmed := ((name.dropWhile isWhiteSpace).reverse.dropWhile isWhiteSpace).reverse
  ["queued", "executing", "success", "cancelled", "failed"].findIdx? fun status =>
    status.toList = trimmed.map Char.toLower

/-- The bits of names between commas, put together. -/
def tryParseByName (value : List Char) : Option ZOperationStatus :=
  (value.splitOn ',').mapM numberOf |>.map fun numbers =>
    ofNumber (numbers.foldl (· ||| ·) 0 : Nat)

/-- A number with a sign, behind which white space and then null characters may stand. -/
def parseNumber (value : List Char) : Option Int :=
  let (negative, digits) : Bool × List Char :=
    match value with
    | '-' :: rest => (true, rest)
    | '+' :: rest => (false, rest)
    | _ => (false, value)
  let number := digits.takeWhile Char.isDigit
  let rest := (digits.dropWhile Char.isDigit).dropWhile isWhite
  if number = [] ∨ ¬ rest.all (fun c => c.toNat = 0) then none
  else
    let magnitude := number.foldl (fun n digit => 10 * n + (digit.toNat - '0'.toNat)) 0
    some (if negative then -magnitude else magnitude)

/-- `Enum.TryParse` without regard to case: a number that fits in an `int`, or names. -/
def tryParse (text : Option String) : Option ZOperationStatus :=
  match (text.getD "").toList.dropWhile isWhiteSpace with
  | [] => none
  | first :: rest =>
      if first.isDigit ∨ first = '-' ∨ first = '+' then
        match parseNumber (first :: rest) with
        | some n => if -2 ^ 31 ≤ n ∧ n < 2 ^ 31 then some (ofNumber n) else none
        | none => tryParseByName (first :: rest)
      else tryParseByName (first :: rest)

end ZOperationStatus

/-- An operation as `z_getoperationresult` reports it, with the transaction id of its result. -/
structure ZCashAsyncOperationStatus where
  operationId : Option String
  status : Option String
  txId : Option String := none
  error : Option JsonRpcError := none

/-- One iteration of the polling loop: the reply, and whether the delay sees the token. -/
structure Poll where
  reply : RpcResponse (List ZCashAsyncOperationStatus)
  cancelled : Bool := false

/-- The operations a poll reports. -/
def Poll.operations (poll : Poll) : List ZCashAsyncOperationStatus :=
  if poll.reply.error.isSome then [] else poll.reply.response.getD []

/-- The replies for one page, and whether the daemon carries its operation out in the end. The
daemon does not report the operation as failed or cancelled if so. -/
structure PageReplies where
  shieldedBalance : RpcResponse ℚ
  send : Bool → RpcResponse String
  walletPassphrase : RpcResponse Unit
  polls : List Poll
  executed : Bool
  failure : Failures
  not_executed : ∀ poll ∈ polls, ∀ operation ∈ poll.operations,
    ZOperationStatus.tryParse operation.status = some .cancelled ∨
      ZOperationStatus.tryParse operation.status = some .failed → executed = false

/-- The configuration and the detected features of the daemon. -/
structure EquihashPayoutConfig where
  supportsSendCurrency : Bool
  walletPassword : Option String := none

namespace EquihashPayoutHandler

def transferFee : ℚ := 1 / 10000

def pageSize : Nat := 50

/-- How the tracking of an operation ends. -/
inductive OperationEnd
  | succeeded (txId : String)
  | failed
  | unrecognized
  | threw (e : Exception)
  | waiting
deriving DecidableEq

/-- The polling loop. -/
def awaitOperation (operationId : String) : List Poll → OperationEnd
  | [] => .waiting
  | poll :: rest =>
      let delay := if poll.cancelled then .threw .operationCanceled
        else awaitOperation operationId rest
      match poll.operations.find? fun operation => operation.operationId = some operationId with
      | none => delay
      | some operation =>
          match ZOperationStatus.tryParse operation.status with
          | none => .unrecognized
          | some .success => .succeeded (operation.txId.getD "")
          | some .cancelled | some .failed =>
              match operation.error with
              | none => .threw .nullReference
              | some _ => .failed
          | some .queued | some .executing | some .undefined => delay

/-- How a page ends before anything is persisted. -/
inductive PageEnd
  | next
  | stop
  | waiting
  | threw (e : Exception)
  | paid (txId : String)
deriving DecidableEq

variable (config : EquihashPayoutConfig) (pool : PoolConfig)

def amounts (page : List Balance) : List Transfer :=
  (page.filter fun balance => 0 < balance.amount).map fun balance =>
    ⟨balance.address, roundDecimals 8 balance.amount⟩

/-- Why a page is not sent, if so. -/
def notSent (replies : PageReplies) (page : List Balance) : Option PageEnd :=
  if amounts page = [] then some .stop
  else if config.supportsSendCurrency then none
  else if replies.shieldedBalance.error.isSome then some .stop
  else match replies.shieldedBalance.response with
    | none => some (.threw .nullReference)
    | some shieldedBalance =>
        if shieldedBalance - transferFee < ((amounts page).map Transfer.amount).sum then
          some .stop
        else none

/-- The call that sends a page, and the tracking of its operation. -/
def sendPage (replies : PageReplies) : PageEnd :=
  match callUnlocked config.walletPassword replies.send replies.walletPassphrase with
  | .error true => .stop
  | .error false => .next
  | .ok operationId =>
      if isNullOrEmpty operationId then .next
      else match awaitOperation (operationId.getD "") replies.polls with
        | .succeeded txId => .paid txId
        | .failed | .unrecognized => .next
        | .threw e => .threw e
        | .waiting => .waiting

/-- The loop over the pages, from the given page on. -/
def payoutPages (replies : Nat → PageReplies) :
    Nat → List (List Balance) → Database → Option PayoutOutcome
  | _, [], db => some (.nothingSent db none)
  | i, page :: rest, db =>
      match notSent config (replies i) page with
      | some (.threw e) => some (.nothingSent db (some e))
      | some _ => some (.nothingSent db none)
      | none =>
          let transfers := if (replies i).executed then amounts page else []
          match sendPage config (replies i) with
          | .stop => some ⟨transfers, [], db, none⟩
          | .waiting => none
          | .threw e => some ⟨transfers, [], db, some e⟩
          | .next => (payoutPages replies (i + 1) rest db).map (.after transfers [])
          | .paid txId =>
              match persistPayments pool (replies i).failure page (some txId) db with
              | .error e => some ⟨transfers, [], db, some e⟩
              | .ok db' =>
                  (payoutPages replies (i + 1) rest db').map
                    (.after transfers (page.map (·, some txId)))

/-- `PayoutAsync`; without a result, it still waits for an operation. `shielding` is what the
shielding of the coinbase funds throws. -/
def payout (shielding : Option Exception) (replies : Nat → PageReplies) (balances : List Balance)
    (db : Database) : Option PayoutOutcome :=
  match (if config.supportsSendCurrency then none else shielding) with
  | some e => some (.nothingSent db (some e))
  | none => payoutPages config pool replies 0 (skipTakePages pageSize balances) db

end EquihashPayoutHandler

end Miningcore
