import Miningcore.Payments.Transfers
import Mathlib.Data.List.Infix
import Miningcore.Payments.PayoutCycles

/-!
# Kaspa payouts

A payment takes three calls to the wallet: one creates the transactions, one
signs them and one broadcasts them. Errors of a call are logged. The payments
are persisted behind the loop.
-/

namespace Miningcore

open Foundation PayoutHandlerBase

/-- The replies for one amount; a call that fails counts as one without results. What is broadcast
may be accepted even if the reply is lost. -/
structure KaspaSend where
  unsignedTransactions : Nat
  signedTransactions : Nat
  accepted : Bool
  txIds : List String

namespace KaspaPayoutHandler

def smallestUnit : ℚ := 10 ^ 8

variable (walletPassword : Option String) (send : String × ℚ → KaspaSend) (pool : PoolConfig)

/-- What one iteration of the loop sends and pays. Requests do not take a missing password. -/
def sendAmount (amount : String × ℚ) :
    Except Exception (Option Transfer × Option (Balance × Option String)) :=
  match toULong (amount.2 * smallestUnit) with
  | .error e => .error e
  | .ok value =>
      if (send amount).unsignedTransactions = 0 then .ok (none, none)
      else match walletPassword with
        | none => .error (.argument "value")
        | some _ =>
            if (send amount).signedTransactions = 0 then .ok (none, none)
            else .ok
              (if (send amount).accepted then some ⟨amount.1, value / smallestUnit⟩ else none,
                (send amount).txIds.head?.map fun txId =>
                  (⟨pool.id, amount.1, amount.2⟩, some txId))

/-- The loop: what was sent, what was paid and the exception that ended it. -/
def sendAmounts : List (String × ℚ) →
    List Transfer × List (Balance × Option String) × Option Exception
  | [] => ([], [], none)
  | amount :: rest =>
      match sendAmount walletPassword send pool amount with
      | .error e => ([], [], some e)
      | .ok (transfer, success) =>
          let (transfers, successes, thrown) := sendAmounts rest
          (transfer.toList ++ transfers, success.toList ++ successes, thrown)

attribute [local irreducible] sendAmount in
theorem sendAmounts_cons (amount : String × ℚ) (rest : List (String × ℚ)) :
    sendAmounts walletPassword send pool (amount :: rest) =
      match sendAmount walletPassword send pool amount with
      | .error e => ([], [], some e)
      | .ok (transfer, success) =>
          let (transfers, successes, thrown) := sendAmounts walletPassword send pool rest
          (transfer.toList ++ transfers, success.toList ++ successes, thrown) := rfl

/-- `PayoutAsync`. Without a reply, the wallet counts as empty. -/
def payout (available : Option (Fin (2 ^ 64))) (failure : Failures) (balances : List Balance)
    (db : Database) : PayoutOutcome :=
  match payableAmounts .ok balances with
  | .error e => .nothingSent db (some e)
  | .ok amounts =>
      if amounts.length = 0 then .nothingSent db none
      else if ((available.map fun n => (n.val : ℚ)).getD 0) / smallestUnit <
          (amounts.map Prod.snd).sum then .nothingSent db none
      else
        let (transfers, successes, thrown) := sendAmounts walletPassword send pool amounts
        match thrown with
        | some e => ⟨transfers, [], db, some e⟩
        | none =>
            if successes.length = 0 then ⟨transfers, [], db, none⟩
            else .afterPersist transfers successes db
              (persistPaymentsByBalance pool failure successes db)

end KaspaPayoutHandler

end Miningcore

/-!
## Classification of Kaspa blocks

A recorded block is orphaned when the node does not have it, when an earlier row
has the same hash, or when nobody pays it. Its reward comes from the children
that merge it and, when none of them pays, from its own coinbase.

## Implementation notes

The node answers every request on its own, so its answers are functions of the
hash that is asked for; `none` is a stream that ended.
-/

namespace Miningcore

namespace Kaspad

structure RpcTransactionOutput where
  amount : Nat
  scriptPublicKeyAddress : String
deriving DecidableEq

structure RpcTransaction where
  inputs : Nat
  outputs : List RpcTransactionOutput
deriving DecidableEq

structure RpcBlock where
  transactions : List RpcTransaction := []
  childrenHashes : List String := []
  mergeSetBluesHashes : List String := []
  mergeSetRedsHashes : List String := []
  isChainBlock : Bool := false
deriving DecidableEq

structure GetBlockResponse where
  errorMessage : String := ""
  block : Option RpcBlock := none
deriving DecidableEq

/-- The answers of a node: the block with a hash, and how many hashes there are from one on. -/
structure Node where
  getBlock : String → Option GetBlockResponse
  getBlocks : String → Option Nat

/-- The first transaction without inputs. -/
def RpcBlock.coinbase (block : RpcBlock) : Option RpcTransaction :=
  (block.transactions.filter fun transaction => transaction.inputs < 1).head?

/-- Whether a hash is part of one of the texts. -/
def anyContains (hashes : List String) (hash : String) : Bool :=
  hashes.any fun text => decide (hash.toList <:+: text.toList)

end Kaspad

structure KaspaClassifyConfig where
  address : String
  minConfirmations : Int
deriving DecidableEq

namespace KaspaPayoutHandler

open Kaspad BlockRepository

variable (config : KaspaClassifyConfig)

/-- The amount of an output in coins, if it goes to the pool. -/
def poolAmount (output : RpcTransactionOutput) : Option ℚ :=
  if output.scriptPublicKeyAddress = config.address then some (output.amount / smallestUnit)
  else none

/-- What a child pays the pool for a block; `none` when it does not pay the pool. -/
def childPays (hash : String) (child : RpcBlock) : Except Exception (Option ℚ) :=
  match child.coinbase with
  | none => .ok none
  | some coinbase =>
      if anyContains child.mergeSetRedsHashes hash then .ok none
      else if anyContains child.mergeSetBluesHashes hash && child.isChainBlock then
        match (child.mergeSetBluesHashes.idxOf? hash).bind (coinbase.outputs[·]?) with
        | none => .error .indexOutOfRange
        | some output => .ok (poolAmount config output)
      else .ok none

/-- The rewards of the children, and whether one of them pays. -/
def childrenPay (node : Node) (hash : String) : List String → Except Exception (ℚ × Bool)
  | [] => .ok (0, false)
  | childHash :: rest =>
      match node.getBlock childHash with
      | none => childrenPay node hash rest
      | some { block := none, .. } => .error .nullReference
      | some { block := some child, .. } =>
          match childPays config hash child, childrenPay node hash rest with
          | .error e, _ => .error e
          | .ok _, .error e => .error e
          | .ok none, .ok pays => .ok pays
          | .ok (some amount), .ok (reward, _) => .ok (amount + reward, true)

/-- What the coinbase of a block pays the pool. -/
def coinbasePays (block : RpcBlock) : ℚ :=
  match block.coinbase with
  | none => 0
  | some coinbase => (coinbase.outputs.filterMap (poolAmount config)).sum

def blockReward (node : Node) (hash : String) (block : RpcBlock) : Except Exception ℚ :=
  match childrenPay config node hash block.childrenHashes with
  | .error e => .error e
  | .ok (reward, childrenProvideRewards) =>
      if block.isChainBlock && !childrenProvideRewards then .ok (reward + coinbasePays config block)
      else .ok reward

/-- The progress is not written when the node does not count; nothing over nothing is no
progress. -/
def confirmationProgress (node : Node) (hash : String) (block : Block) : ℚ :=
  match node.getBlocks hash with
  | none => block.confirmationProgress
  | some count =>
      if config.minConfirmations = 0 then (if count = 0 then 0 else 1)
      else min 1 (count / config.minConfirmations)

def orphaned (block : Block) : Verdict where
  status := .orphaned
  confirmationProgress := block.confirmationProgress
  reward := 0

/-- The classification of a block that the node has and that no earlier row records. -/
def classifyKnown (node : Node) (hash : String) (response : GetBlockResponse) (block : Block) :
    Except Exception Verdict :=
  let progress := confirmationProgress config node hash block
  if progress < 1 then
    .ok { status := block.status, confirmationProgress := progress, reward := block.reward }
  else
    match response.block with
    | none => .error .nullReference
    | some info =>
        match blockReward config node hash info with
        | .error e => .error e
        | .ok reward =>
            if 0 < reward then .ok { status := .confirmed, confirmationProgress := 1, reward }
            else .ok { status := .orphaned, confirmationProgress := progress, reward := 0 }

/-- The rows of any status with the height and the hash of a block that were recorded before it. -/
def totalDuplicateBlockBefore (pool : PoolConfig) (blocks : List Block) (block : Block) : Nat :=
  getPoolDuplicateBlockBeforeCountByPoolHeightAndHashNoTypeAndStatus blocks pool.id
    block.blockHeight block.hash [.confirmed, .orphaned, .pending] block.created

/-- One block; `none` when it is not among the results. -/
def classifyBlock (pool : PoolConfig) (blocks : List Block) (node : Node) (block : Block) :
    Except Exception (Option Verdict) :=
  match block.hash with
  | none => .error (.argument "value")
  | some hash =>
      match node.getBlock hash with
      | none => .ok none
      | some response =>
          if response.errorMessage ≠ "" then .ok (some (orphaned block))
          else if 0 < totalDuplicateBlockBefore pool blocks block then .ok (some (orphaned block))
          else (classifyKnown config node hash response block).map some

/-- `ClassifyBlocksAsync`: the results in the order of the blocks. -/
def classifyBlocks (pool : PoolConfig) (blocks : List Block) (node : Block → Node) :
    List Block → Except Exception (List Block)
  | [] => .ok []
  | block :: rest =>
      match classifyBlock config pool blocks (node block) block,
          classifyBlocks pool blocks node rest with
      | .error e, _ => .error e
      | .ok _, .error e => .error e
      | .ok none, .ok results => .ok results
      | .ok (some verdict), .ok results => .ok (verdict.apply block :: results)

/-- What a cycle finds, when no classification throws. -/
def verdicts (pool : PoolConfig) (blocks : List Block) (node : Block → Node) (block : Block) :
    Option Verdict :=
  (classifyBlock config pool blocks (node block) block).toOption.join

/-- The results are those of the blocks one by one. -/
theorem classifyBlocks_eq_ok {pool : PoolConfig} {blocks : List Block} {node : Block → Node}
    {pending results : List Block}
    (h : classifyBlocks config pool blocks node pending = .ok results) :
    results = Miningcore.classifyBlocks (verdicts config pool blocks node) pending := by
  induction pending generalizing results with
  | nil =>
      cases h
      rfl
  | cons block rest ih =>
      rw [classifyBlocks] at h
      cases hblock : classifyBlock config pool blocks (node block) block with
      | error e =>
          rw [hblock] at h
          cases h
      | ok verdict? =>
          cases hrest : classifyBlocks config pool blocks node rest with
          | error e =>
              rw [hblock, hrest] at h
              cases h
          | ok others =>
              have hothers := ih hrest
              rw [hblock, hrest] at h
              rw [Miningcore.classifyBlocks] at hothers ⊢
              rw [List.filterMap_cons, verdicts, hblock, ← hothers]
              cases verdict? <;> cases h <;> rfl

end KaspaPayoutHandler

end Miningcore
