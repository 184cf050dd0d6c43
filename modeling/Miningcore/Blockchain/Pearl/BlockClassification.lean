import Miningcore.Payments.NodeOutages
import Miningcore.Payments.PaymentPersistence

/-!
# Classification of Pearl blocks

A recorded block is looked up by its hash. Its confirmations decide about it; an
exception leaves the row as it is, and a reply with an error orphans it.
-/

namespace Miningcore

open Foundation

structure PearlGetBlockResponse where
  confirmations : ℤ
deriving DecidableEq

namespace PearlPayoutHandler

def minConfirmations : ℤ := 100

/-- What ends up in a block that the wallet has. -/
def classifyFound (response : PearlGetBlockResponse) (block : Block) : Block :=
  if response.confirmations < 0 then { block with status := .orphaned }
  else if minConfirmations ≤ response.confirmations then
    { block with status := .confirmed, confirmationProgress := 1 }
  else
    { block with
      status := .pending
      confirmationProgress := min 1 (response.confirmations / minConfirmations) }

/-- An exception or an error is no answer. -/
def answers (answer : Except Exception (RpcResponse PearlGetBlockResponse)) : Bool :=
  match answer with
  | .error _ => false
  | .ok reply => reply.error.isNone

/-- One pass of the loop, whose exceptions are caught. -/
def classifyBlock (answer : Except Exception (RpcResponse PearlGetBlockResponse)) (block : Block) :
    Guarded Exception (Option Block) where
  outcome :=
    match answer with
    | .error _ => .ok none
    | .ok reply =>
        match reply.error, reply.response with
        | none, some response => .ok (some (classifyFound response block))
        | _, _ => .ok (some { block with status := .orphaned })
  answered := answers answer

def classifyBlocks (wallet : Block → Except Exception (RpcResponse PearlGetBlockResponse)) :
    List Block → Except Exception (List Block) :=
  classifyEach fun block => classifyBlock (wallet block) block

/-- The wallet replies with an error. The client makes one of every exception that it catches. -/
def OutageOrphans (answer : Except Exception (RpcResponse PearlGetBlockResponse)) : Prop :=
  ∃ reply, answer = .ok reply ∧ reply.error.isSome

theorem id_classifyFound (response : PearlGetBlockResponse) (block : Block) :
    (classifyFound response block).id = block.id := by
  rw [classifyFound]
  split_ifs <;> rfl

theorem keepsKey_classifyBlock
    (wallet : Block → Except Exception (RpcResponse PearlGetBlockResponse)) :
    KeepsKey fun block => classifyBlock (wallet block) block := by
  intro block result hresult
  dsimp only [classifyBlock] at hresult
  cases hanswer : wallet block with
  | error e =>
      rw [hanswer] at hresult
      exact absurd (Except.ok.inj hresult) (Option.some_ne_none result).symm
  | ok reply =>
      rw [hanswer] at hresult
      dsimp only at hresult
      split at hresult
      · obtain rfl := Option.some.inj (Except.ok.inj hresult)
        exact id_classifyFound _ block
      · obtain rfl := Option.some.inj (Except.ok.inj hresult)
        rfl

theorem exists_classifyBlock (answer : Except Exception (RpcResponse PearlGetBlockResponse))
    (block : Block) : ∃ result, (classifyBlock answer block).outcome = .ok result := by
  dsimp only [classifyBlock]
  cases answer with
  | error e => exact ⟨none, rfl⟩
  | ok reply =>
      dsimp only
      split
      · exact ⟨_, rfl⟩
      · exact ⟨_, rfl⟩

theorem orphanedUnanswered_classifyBlock_iff
    (wallet : Block → Except Exception (RpcResponse PearlGetBlockResponse)) (block : Block) :
    OrphanedUnanswered (fun block => classifyBlock (wallet block) block) block ↔
      OutageOrphans (wallet block) := by
  dsimp only [OrphanedUnanswered, OutageOrphans, classifyBlock, answers]
  cases wallet block with
  | error e => simp
  | ok reply =>
      obtain ⟨response, error⟩ := reply
      cases error with
      | none => simp
      | some error => simp

/-- When the cycles of a Pearl pool keep what the wallet did not answer for. -/
theorem keepsUnanswered_classifyBlocks_iff {pool : PoolConfig}
    (wallet : Block → Except Exception (RpcResponse PearlGetBlockResponse)) {rows : List Block}
    (hids : (rows.map Block.id).Nodup) :
    KeepsUnanswered pool (classifyBlocks wallet)
        (fun row => (classifyBlock (wallet row) row).answered = false) rows ↔
      ∀ row ∈ BlockRepository.getPendingBlocksForPool rows pool.id,
        ¬OutageOrphans (wallet row) := by
  rw [classifyBlocks, keepsUnanswered_iff (keepsKey_classifyBlock wallet) hids]
  simp only [orphanedUnanswered_classifyBlock_iff]
  refine or_iff_right_of_imp ?_
  rintro ⟨failed, -, e, he⟩
  obtain ⟨result, hresult⟩ := exists_classifyBlock (wallet failed) failed
  rw [hresult] at he
  contradiction

end PearlPayoutHandler

end Miningcore
