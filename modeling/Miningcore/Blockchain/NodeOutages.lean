import Miningcore.Blockchain.Alephium.BlockClassification
import Miningcore.Blockchain.Ergo.ErgoPayoutHandler
import Miningcore.Blockchain.Pearl.BlockClassification

/-!
# Verdicts of handlers whose node is out

Of three handlers each has an answer of its node that it reads an outage as, and
orphans the row for.
-/

namespace Miningcore

open Foundation BlockRepository

/-- Rows that a node did not answer for stay pending, or are confirmed by what it did answer,
exactly when no row is orphaned with a call for it failed, or another row ends the cycle. -/
theorem keepsUnanswered_handlers_iff (pool : PoolConfig) (alephiumConfig : AlephiumClassifyConfig)
    (alephium : Block → Alephium.Node) (ergoConfig : ErgoClassifyConfig) (ergo : Ergo.Node)
    (pearl : Block → Except Exception (RpcResponse PearlGetBlockResponse)) (rows : List Block)
    (hids : (rows.map Block.id).Nodup) :
    (KeepsUnanswered pool (AlephiumPayoutHandler.classifyBlocks alephiumConfig alephium)
        (fun row =>
          (AlephiumPayoutHandler.classifyBlock alephiumConfig (alephium row) row).answered = false)
        rows ↔
      (∃ row ∈ getPendingBlocksForPool rows pool.id,
        AlephiumPayoutHandler.Throws alephiumConfig (alephium row) row) ∨
        ∀ row ∈ getPendingBlocksForPool rows pool.id,
          ¬AlephiumPayoutHandler.OutageOrphans (alephium row) row) ∧
    (KeepsUnanswered pool (ErgoPayoutHandler.classifyBlocks ergoConfig ergo)
        (fun row => (ErgoPayoutHandler.classifyRow ergoConfig ergo row).answered = false) rows ↔
      ∀ row ∈ getPendingBlocksForPool rows pool.id,
        ¬ErgoPayoutHandler.RowOutageOrphans ergo row) ∧
    (KeepsUnanswered pool (PearlPayoutHandler.classifyBlocks pearl)
        (fun row => (PearlPayoutHandler.classifyBlock (pearl row) row).answered = false) rows ↔
      ∀ row ∈ getPendingBlocksForPool rows pool.id,
        ¬PearlPayoutHandler.OutageOrphans (pearl row)) :=
  ⟨AlephiumPayoutHandler.keepsUnanswered_classifyBlocks_iff alephium hids,
    ErgoPayoutHandler.keepsUnanswered_classifyBlocks_iff ergoConfig ergo hids,
    PearlPayoutHandler.keepsUnanswered_classifyBlocks_iff pearl hids⟩

section outage

def outagePool : PoolConfig where
  id := "pool"
  address := "address"

/-- A row that the pool has recorded. -/
def minedRow : Block where
  id := 1
  poolId := "pool"
  blockHeight := 500
  transactionConfirmationData := "00c0ffee"
  miner := "miner"
  reward := 3
  hash := some "00000000a1"
  created := 0

def outageConfig : AlephiumClassifyConfig where
  blockRewardsLockTime := none
  convertNumberFromApi _ := .ok 0

/-- The node is out. -/
def alephiumOut : Alephium.Node where
  isBlockInMainChain := none
  uncleHash := none
  hash := none
  minersAddresses := none
  now := 0

/-- The node has the block of the row, and the wallet is out. -/
def ergoOut : Ergo.Node where
  minerRewardPubkey := .ok "pk"
  minerRewardAddress := .ok "address"
  fullBlocksAt _ := some [some ⟨"00000000a1", "pk", "00c0ffee", [none]⟩]

/-- What the client makes of a connection that is refused. -/
def pearlOut : Except Exception (RpcResponse PearlGetBlockResponse) :=
  .ok ⟨none, some ⟨-500, "Connection refused"⟩⟩

/-- Each handler has an outage that it orphans a row for. -/
theorem outage_orphans :
    ¬KeepsUnanswered outagePool
        (AlephiumPayoutHandler.classifyBlocks outageConfig fun _ => alephiumOut)
        (fun row =>
          (AlephiumPayoutHandler.classifyBlock outageConfig alephiumOut row).answered = false)
        [minedRow] ∧
      ¬KeepsUnanswered outagePool (ErgoPayoutHandler.classifyBlocks ⟨none, "mainnet"⟩ ergoOut)
        (fun row =>
          (ErgoPayoutHandler.classifyRow ⟨none, "mainnet"⟩ ergoOut row).answered = false)
        [minedRow] ∧
      ¬KeepsUnanswered outagePool (PearlPayoutHandler.classifyBlocks fun _ => pearlOut)
        (fun row => (PearlPayoutHandler.classifyBlock pearlOut row).answered = false)
        [minedRow] := by
  have hids : ([minedRow].map Block.id).Nodup := List.nodup_singleton 1
  have hpending : getPendingBlocksForPool [minedRow] outagePool.id = [minedRow] := by decide
  refine ⟨?_, ?_, ?_⟩
  · rw [AlephiumPayoutHandler.keepsUnanswered_classifyBlocks_iff _ hids, hpending]
    simp [AlephiumPayoutHandler.Throws, AlephiumPayoutHandler.OutageOrphans, alephiumOut]
  · rw [ErgoPayoutHandler.keepsUnanswered_classifyBlocks_iff _ _ hids, hpending]
    intro hkept
    refine hkept minedRow (List.mem_singleton_self _) ⟨"pk", "address", rfl, rfl, _, rfl, ?_,
      ⟨"00000000a1", "pk", "00c0ffee", [none]⟩, List.mem_singleton_self _,
      List.mem_singleton_self _⟩
    intro answer hanswer
    obtain rfl := List.mem_singleton.mp hanswer
    decide
  · rw [PearlPayoutHandler.keepsUnanswered_classifyBlocks_iff _ hids, hpending]
    intro hkept
    exact hkept minedRow (List.mem_singleton_self _) ⟨_, rfl, rfl⟩

/-- Other outages are survived: an Alephium block that is on the main chain and not given, headers
of Ergo that cannot be had, and a Pearl wallet that times out. -/
theorem outage_kept :
    KeepsUnanswered outagePool
        (AlephiumPayoutHandler.classifyBlocks outageConfig fun _ =>
          { alephiumOut with isBlockInMainChain := some true })
        (fun row => (AlephiumPayoutHandler.classifyBlock outageConfig
          { alephiumOut with isBlockInMainChain := some true } row).answered = false) [minedRow] ∧
      KeepsUnanswered outagePool (ErgoPayoutHandler.classifyBlocks ⟨none, "mainnet"⟩
          { ergoOut with fullBlocksAt := fun _ => none })
        (fun row => (ErgoPayoutHandler.classifyRow ⟨none, "mainnet"⟩
          { ergoOut with fullBlocksAt := fun _ => none } row).answered = false) [minedRow] ∧
      KeepsUnanswered outagePool (PearlPayoutHandler.classifyBlocks fun _ => .error .timeout)
        (fun row => (PearlPayoutHandler.classifyBlock (.error .timeout) row).answered = false)
        [minedRow] := by
  obtain ⟨halephium, hergo, hpearl⟩ := keepsUnanswered_handlers_iff outagePool outageConfig
    (fun _ => { alephiumOut with isBlockInMainChain := some true }) ⟨none, "mainnet"⟩
    { ergoOut with fullBlocksAt := fun _ => none } (fun _ => .error .timeout) [minedRow]
    (List.nodup_singleton 1)
  refine ⟨halephium.mpr (Or.inr ?_), hergo.mpr ?_, hpearl.mpr ?_⟩
  · rintro row - ⟨hchain, -⟩
    exact hchain rfl
  · rintro row - ⟨pubkey, address, -, -, answers, hanswers, -⟩
    contradiction
  · rintro row - ⟨reply, hreply, -⟩
    contradiction

end outage

end Miningcore
