import Mathlib.Algebra.Order.Field.Rat
import Mathlib.Data.List.Sort
import Miningcore.Foundation.Dictionary
import Miningcore.Foundation.DescendingSort

/-!
# Persisted records

The rows of the tables the payout code reads and writes, with the columns it
uses. Decimals and doubles are rationals. Points in time are ticks.

## Implementation notes

The shares table has no key. Two rows may agree in every column, so a row
carries the identity the database gives it; no query reads that identity.
-/

namespace Miningcore

abbrev DateTime := Nat

/-- A recorded share: accepted work has no negative difficulty, and the difficulty of the network
is positive. -/
structure Share where
  rowId : Nat
  poolId : String
  miner : String
  difficulty : ℚ
  networkDifficulty : ℚ
  created : DateTime
  difficulty_nonneg : 0 ≤ difficulty
  networkDifficulty_pos : 0 < networkDifficulty
deriving DecidableEq

/-- A share of the pool with the id "pool" that is worth one network difficulty. -/
def Share.unit (rowId : Nat) (miner : String) (created : DateTime) : Share where
  rowId
  poolId := "pool"
  miner
  difficulty := 1
  networkDifficulty := 1
  created
  difficulty_nonneg := zero_le_one
  networkDifficulty_pos := zero_lt_one

inductive BlockStatus
  | pending
  | orphaned
  | confirmed
deriving DecidableEq

structure Block where
  id : Nat
  poolId : String
  blockHeight : Nat
  status : BlockStatus := .pending
  type : Option String := none
  confirmationProgress : ℚ := 0
  effort : Option ℚ := none
  minerEffort : Option ℚ := none
  transactionConfirmationData : String := ""
  miner : String
  reward : ℚ
  hash : Option String := none
  created : DateTime
deriving DecidableEq

/-- Amount owed in pool-base-currency. -/
structure Balance where
  poolId : String
  address : String
  amount : ℚ
deriving DecidableEq

/-- What a balance change was made for. -/
inductive Usage
  | rewardForBlock (blockHeight : Nat)
  | rewardForShares (shares : ℚ) (blockHeight : Nat)
  | balanceReset
deriving DecidableEq

structure BalanceChange where
  poolId : String
  address : String
  amount : ℚ
  usage : Usage
deriving DecidableEq

structure Payment where
  poolId : String
  coin : String
  address : String
  amount : ℚ
  transactionConfirmationData : String
deriving DecidableEq

structure MinerSettings where
  poolId : String
  address : String
  paymentThreshold : ℚ
deriving DecidableEq

/-- The committed contents of the database. -/
structure Database where
  shares : List Share := []
  blocks : List Block := []
  balances : List Balance := []
  balanceChanges : List BalanceChange := []
  payments : List Payment := []
  minerSettings : List MinerSettings := []
deriving DecidableEq

/-- The exceptions the payout code can end with. -/
inductive Exception
  | operationCanceled
  | overflow (message : String)
  | divideByZero
  | keyNotFound (key : String)
  | indexOutOfRange
  | argument (message : String)
  | nullReference
  | invalidOperation (message : String)
  | payment (message : String)
  | timeout
  | db
deriving DecidableEq

end Miningcore

/-!
## Repositories

Each query is the function of the table contents its SQL text describes. Rows
that `ORDER BY created DESC` leaves tied come in table order.
-/

namespace Miningcore

open Foundation

namespace ShareRepository

/-- The `WHERE` clause of a read before a point in time. -/
def isBefore (poolId : String) (before : DateTime) (inclusive : Bool) (share : Share) : Bool :=
  decide (share.poolId = poolId) &&
    (if inclusive then decide (share.created ≤ before) else decide (share.created < before))

def readSharesBefore (shares : List Share) (poolId : String) (before : DateTime)
    (inclusive : Bool) (pageSize : Nat) : List Share :=
  (sortDescending Share.created (shares.filter (isBefore poolId before inclusive))).take pageSize

def countSharesBefore (shares : List Share) (poolId : String) (before : DateTime) : Nat :=
  (shares.filter (isBefore poolId before false)).length

def deleteSharesBefore (shares : List Share) (poolId : String) (before : DateTime) : List Share :=
  shares.filter fun share => !isBefore poolId before false share

/-- `SUM(difficulty / networkdifficulty)`, which is null over no rows. -/
def sumEffort : List Share → Option ℚ
  | [] => none
  | rows => some (rows.map fun share => share.difficulty / share.networkDifficulty).sum

def getEffectiveAccumulatedShareDifficultyBetween (shares : List Share) (poolId : String)
    (start stop : DateTime) : Option ℚ :=
  sumEffort (shares.filter fun share =>
    share.poolId = poolId ∧ start < share.created ∧ share.created < stop)

def getMinerShareDifficultyBetween (shares : List Share) (poolId miner : String)
    (start stop : DateTime) : Option ℚ :=
  sumEffort (shares.filter fun share => share.poolId = poolId ∧ share.miner = miner ∧
    start < share.created ∧ share.created < stop)

end ShareRepository

namespace BlockRepository

/-- Writes every column `UPDATE blocks` sets, to the rows with the block's id. -/
def updateBlock (blocks : List Block) (block : Block) : List Block :=
  blocks.map fun row =>
    if row.id = block.id then
      { row with
        blockHeight := block.blockHeight
        status := block.status
        type := block.type
        reward := block.reward
        effort := block.effort
        minerEffort := block.minerEffort
        confirmationProgress := block.confirmationProgress
        hash := block.hash }
    else row

def getPendingBlocksForPool (blocks : List Block) (poolId : String) : List Block :=
  blocks.filter fun block => block.poolId = poolId ∧ block.status = .pending

def getBlockBefore (blocks : List Block) (poolId : String) (status : List BlockStatus)
    (before : DateTime) : Option Block :=
  (sortDescending Block.created (blocks.filter fun block =>
    block.poolId = poolId ∧ block.status ∈ status ∧ block.created < before)).head?

def getPoolDuplicateBlockBeforeCountByPoolHeightAndHashNoTypeAndStatus (blocks : List Block)
    (poolId : String) (height : Nat) (hash : Option String) (status : List BlockStatus)
    (before : DateTime) : Nat :=
  (blocks.filter fun block => block.poolId = poolId ∧ block.blockHeight = height ∧
    hash.isSome ∧ block.hash = hash ∧ block.status ∈ status ∧ block.created < before).length

def getBlockByPoolHeightAndType (blocks : List Block) (poolId : String) (height : Nat)
    (type : String) : Option Block :=
  (blocks.filter fun block =>
    block.poolId = poolId ∧ block.blockHeight = height ∧ block.type = some type).head?

def getPoolDuplicateBlockCountByPoolHeightNoTypeAndStatus (blocks : List Block) (poolId : String)
    (height : Nat) (status : List BlockStatus) : Nat :=
  (blocks.filter fun block =>
    block.poolId = poolId ∧ block.blockHeight = height ∧ block.status ∈ status).length

def getPoolDuplicateBlockBeforeCountByPoolHeightNoTypeAndStatus (blocks : List Block)
    (poolId : String) (height : Nat) (status : List BlockStatus) (before : DateTime) : Nat :=
  (blocks.filter fun block => block.poolId = poolId ∧ block.blockHeight = height ∧
    block.status ∈ status ∧ block.created < before).length

def getPoolDuplicateBlockAfterCountByPoolHeightNoTypeAndStatus (blocks : List Block)
    (poolId : String) (height : Nat) (status : List BlockStatus) (after : DateTime) : Nat :=
  (blocks.filter fun block => block.poolId = poolId ∧ block.blockHeight = height ∧
    block.status ∈ status ∧ after < block.created).length

end BlockRepository

namespace BalanceRepository

/-- `UPDATE balances SET amount = amount + @amount`, or an insert when there is no row yet. -/
def upsertAmount (balances : List Balance) (poolId address : String) (amount : ℚ) :
    List Balance :=
  if balances.any fun balance => balance.poolId = poolId ∧ balance.address = address then
    balances.map fun balance =>
      if balance.poolId = poolId ∧ balance.address = address then
        { balance with amount := balance.amount + amount }
      else balance
  else balances ++ [⟨poolId, address, amount⟩]

def addAmount (db : Database) (poolId address : String) (amount : ℚ) (usage : Usage) : Database :=
  { db with
    balanceChanges := db.balanceChanges ++ [⟨poolId, address, amount, usage⟩]
    balances := upsertAmount db.balances poolId address amount }

def getBalance (db : Database) (poolId address : String) : ℚ :=
  ((db.balances.find? fun balance => balance.poolId = poolId ∧ balance.address = address).map
    Balance.amount).getD 0

def getPoolBalancesOverThreshold (db : Database) (poolId : String) (minimum : ℚ) : List Balance :=
  db.balances.filter fun balance => balance.poolId = poolId ∧
    ((db.minerSettings.find? fun settings =>
      settings.poolId = balance.poolId ∧ settings.address = balance.address).map
        MinerSettings.paymentThreshold).getD minimum ≤ balance.amount

end BalanceRepository

/-- The action runs on the contents of the database; an exception rolls all its writes back. -/
def runTx {α : Type} (db : Database) (action : Database → Except Exception (Database × α)) :
    Database × Except Exception α :=
  match action db with
  | .ok (db', result) => (db', .ok result)
  | .error e => (db, .error e)

end Miningcore
