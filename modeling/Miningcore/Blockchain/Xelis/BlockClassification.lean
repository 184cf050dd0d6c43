import Miningcore.Extensions.UnsignedArithmetic
import Miningcore.Foundation.EarlyExit
import Miningcore.Foundation.FloatingPoint
import Miningcore.Payments.PaymentPersistence

/-!
# Classification of Xelis blocks

A row is looked up by its hash. A block of another miner is lost, one of the pool is confirmed once
its confirmation progress is complete.

## Implementation notes

The progress is a double: its divisor is configured and can be zero. A row and its progress stand
side by side, since the rows of the database have a rational number there; apart from that doubles
and decimals are rational numbers. `none` stands for null.
-/

namespace Miningcore

open Foundation

/-- A row as a classification leaves it, with its confirmation progress. -/
structure ClassifiedBlock where
  block : Block
  confirmationProgress : FloatingPoint

/-- A row whose progress has not changed or is a rational number. -/
def Block.classified (block : Block) : ClassifiedBlock :=
  ⟨block, .finite block.confirmationProgress⟩

namespace XelisPayoutHandler

structure GetBlockByHashResponse where
  miner : Option String
  minerReward : ℕ
deriving DecidableEq

/-- The answers of the daemon: the topoheight of its chain, and the block of a row. -/
structure Node where
  chainInfo : RpcResponse ℕ
  blockByHash : Block → RpcResponse GetBlockByHashResponse

def smallestUnit : ℚ := 10 ^ 8

def rpcInvalidParams : ℤ := -32602

section classification

variable (pool : PoolConfig) (minConfirmations : ℤ)

def confirmationProgress (topoHeight height : ℕ) : FloatingPoint :=
  FloatingPoint.min (.finite 1) (FloatingPoint.div .exact
    (.finite (subUlong topoHeight height)) (.finite minConfirmations))

/-- Decides about a row. A row whose request fails is not returned, unless its hash is unknown. -/
def classifyBlock (topoHeight : ℕ) (answer : RpcResponse GetBlockByHashResponse) (block : Block) :
    Except Exception (Option ClassifiedBlock) :=
  let lost := { block with status := .orphaned, reward := 0 }
  match answer.error, answer.response with
  | some error, _ => .ok (if error.code = rpcInvalidParams then some lost.classified else none)
  | none, none => .error .nullReference
  | none, some response =>
      if response.miner ≠ some pool.address then .ok (some lost.classified)
      else
        let progress := confirmationProgress minConfirmations topoHeight block.blockHeight
        if FloatingPoint.le (.finite 1) progress then
          let reward := response.minerReward / smallestUnit
          -- a block without a reward is given up
          if 0 < reward then
            .ok (some ⟨{ block with status := .confirmed, reward }, .finite 1⟩)
          else .ok (some ⟨lost, .finite 1⟩)
        else .ok (some ⟨block, progress⟩)

/-- `ClassifyBlocksAsync`, which goes through the pages of the blocks in order. -/
def classifyBlocks (node : Node) (blocks : List Block) :
    Except Exception (List ClassifiedBlock) :=
  if blocks = [] then .ok []
  else
    match node.chainInfo.error, node.chainInfo.response with
    | some _, _ => .ok (blocks.map Block.classified)
    | none, none => .error .nullReference
    | none, some topoHeight =>
        collect (fun block =>
          classifyBlock pool minConfirmations topoHeight (node.blockByHash block) block) blocks

end classification

end XelisPayoutHandler

end Miningcore
