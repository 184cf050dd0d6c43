import Miningcore.Payments.NodeOutages

/-!
# Classification of Alephium blocks

A recorded block is looked up on the main chain and then among the ghost uncles.
Its reward is an output of the last transaction without inputs, and it has to go
to one of the addresses of the wallet.

## Implementation notes

The node is asked for each row anew, so its answers belong to a row; `none` is a
call that failed. Decimals and doubles are rational numbers, times are
milliseconds.
-/

namespace Miningcore

open Foundation

namespace Alephium

structure FixedAssetOutput where
  attoAlphAmount : String
  address : String
  lockTime : ℤ
deriving DecidableEq

/-- A transaction, by the number of its inputs. -/
structure Settlement where
  inputs : ℕ
  fixedOutputs : List FixedAssetOutput
deriving DecidableEq

structure BlockEntry where
  timestamp : ℤ
  transactions : List Settlement
  /-- The hashes of the ghost uncles. -/
  ghostUncles : List String
deriving DecidableEq

/-- The answers to the calls for a row, and the time after them. -/
structure Node where
  isBlockInMainChain : Option Bool
  uncleHash : Option BlockEntry
  hash : Option BlockEntry
  minersAddresses : Option (List String)
  now : ℤ
deriving DecidableEq

/-- The transaction related to the block reward. -/
def BlockEntry.rewardTransaction (info : BlockEntry) : Option Settlement :=
  (info.transactions.filter fun transaction => transaction.inputs < 1).getLast?

/-- The index of the output for a ghost uncle, behind the one for the main chain. An uncle that is
not listed gets the one for the main chain. -/
def BlockEntry.uncleOutput (info : BlockEntry) (hash : Option String) : ℕ :=
  match info.ghostUncles.findIdx? fun uncle => some uncle = hash with
  | some index => index + 1
  | none => 0

end Alephium

structure AlephiumClassifyConfig where
  /-- Minutes, for a network whose own lock time is too short. -/
  blockRewardsLockTime : Option ℤ
  /-- What an amount of the node is as a number. -/
  convertNumberFromApi : String → Except Exception ℚ

namespace AlephiumPayoutHandler

open Alephium

def smallestUnit : ℚ := 10 ^ 18

def orphaned (block : Block) : Block := { block with status := .orphaned, reward := 0 }

variable (config : AlephiumClassifyConfig)

/-- How long a reward is locked. -/
def lockTime (info : BlockEntry) (blockReward : FixedAssetOutput) : ℤ :=
  match config.blockRewardsLockTime with
  | none => blockReward.lockTime - info.timestamp
  | some minutes => minutes * 60 * 1000

def confirmationProgress (now : ℤ) (info : BlockEntry) (blockReward : FixedAssetOutput) :
    Except Exception ℚ :=
  if lockTime config info blockReward = 0 then .error .divideByZero
  else .ok (min 1 ((now - info.timestamp) / lockTime config info blockReward))

/-- A block whose reward goes to the wallet, matured or not. -/
def classifyPaid (now : ℤ) (block : Block) (info : BlockEntry) (blockReward : FixedAssetOutput) :
    Except Exception Block :=
  match confirmationProgress config now info blockReward with
  | .error e => .error e
  | .ok progress =>
      if progress < 1 then .ok { block with confirmationProgress := progress }
      else
        match config.convertNumberFromApi blockReward.attoAlphAmount with
        | .error e => .error e
        | .ok amount =>
            .ok { block with
              status := .confirmed
              confirmationProgress := 1
              reward := amount / smallestUnit }

/-- The reward of a block that the node has. -/
def classifyReward (node : Node) (block : Block) (info : BlockEntry) (index : ℕ) :
    Guarded Exception (Option Block) :=
  match info.rewardTransaction with
  | none => pure (some (orphaned block))
  | some transaction => do
      let walletMinersAddresses ← Guarded.ask node.minersAddresses
      match walletMinersAddresses, transaction.fixedOutputs[index]? with
      | some addresses, some blockReward =>
          if blockReward.address ∈ addresses then
            match classifyPaid config node.now block info blockReward with
            | .error e => Guarded.throw e
            | .ok block => pure (some block)
          else pure (some (orphaned block))
      | _, _ => Guarded.throw .nullReference

def classifyBlock (node : Node) (block : Block) : Guarded Exception (Option Block) := do
  let isBlockInMainChain ← Guarded.ask node.isBlockInMainChain
  if isBlockInMainChain.getD false then
    let block := { block with type := some "block" }
    let blockInfo ← Guarded.ask node.hash
    match blockInfo with
    | none => Guarded.throw .nullReference
    | some info => classifyReward config node block info 0
  else
    let block := { block with type := some "uncle" }
    let blockInfo ← Guarded.ask node.uncleHash
    match blockInfo with
    | none => pure (some (orphaned block))
    | some info => classifyReward config node block info (info.uncleOutput block.hash)

/-- `ClassifyBlocksAsync`, which goes through the pages of the blocks in order. -/
def classifyBlocks (node : Block → Node) : List Block → Except Exception (List Block) :=
  classifyEach fun block => classifyBlock config (node block) block

/-! ## What orphans a block, and what throws -/

variable {config} {node : Node} {block : Block} {info : BlockEntry} {index : ℕ}

/-- The node has no transaction for the reward, or one for somebody else. -/
def RewardLost (node : Node) (info : BlockEntry) (index : ℕ) : Prop :=
  info.rewardTransaction = none ∨ ∃ transaction, info.rewardTransaction = some transaction ∧
    ∃ addresses blockReward, node.minersAddresses = some addresses ∧
      transaction.fixedOutputs[index]? = some blockReward ∧ blockReward.address ∉ addresses

/-- The progress of a paid block is no number, or its amount is none when it has matured. -/
def PaidThrows (config : AlephiumClassifyConfig) (now : ℤ) (info : BlockEntry)
    (blockReward : FixedAssetOutput) : Prop :=
  lockTime config info blockReward = 0 ∨
    1 ≤ ((now - info.timestamp) / lockTime config info blockReward : ℚ) ∧
      ∃ e, config.convertNumberFromApi blockReward.attoAlphAmount = .error e

/-- The reward cannot be looked at, or is for the wallet and cannot be paid. -/
def RewardThrows (config : AlephiumClassifyConfig) (node : Node) (info : BlockEntry) (index : ℕ) :
    Prop :=
  ∃ transaction, info.rewardTransaction = some transaction ∧
    (node.minersAddresses = none ∨ transaction.fixedOutputs[index]? = none ∨
      ∃ addresses blockReward, node.minersAddresses = some addresses ∧
        transaction.fixedOutputs[index]? = some blockReward ∧ blockReward.address ∈ addresses ∧
          PaidThrows config node.now info blockReward)

/-- The block is not known to be on the main chain, and the call for an uncle fails; or the call for
the main chain fails, and the reward of the uncle is lost. -/
def OutageOrphans (node : Node) (block : Block) : Prop :=
  node.isBlockInMainChain ≠ some true ∧
    (node.uncleHash = none ∨ node.isBlockInMainChain = none ∧
      ∃ info, node.uncleHash = some info ∧ RewardLost node info (info.uncleOutput block.hash))

/-- The main chain has the block and does not give it, or its reward throws. -/
def Throws (config : AlephiumClassifyConfig) (node : Node) (block : Block) : Prop :=
  if node.isBlockInMainChain = some true then
    ∀ info, node.hash = some info → RewardThrows config node info 0
  else
    ∃ info, node.uncleHash = some info ∧
      RewardThrows config node info (info.uncleOutput block.hash)

theorem classifyPaid_cases (now : ℤ) (block : Block) (info : BlockEntry)
    (blockReward : FixedAssetOutput) :
    PaidThrows config now info blockReward ∧
        (∃ e, classifyPaid config now block info blockReward = .error e) ∨
      ¬PaidThrows config now info blockReward ∧
        ∃ result, classifyPaid config now block info blockReward = .ok result ∧
          result.id = block.id ∧ (result.status = block.status ∨ result.status = .confirmed) := by
  rw [classifyPaid, confirmationProgress, PaidThrows]
  by_cases hlock : lockTime config info blockReward = 0
  · rw [if_pos hlock]
    exact Or.inl ⟨Or.inl hlock, _, rfl⟩
  · rw [if_neg hlock]
    dsimp only
    by_cases hmatured : 1 ≤ ((now - info.timestamp) / lockTime config info blockReward : ℚ)
    · rw [min_eq_left hmatured, if_neg (lt_irrefl 1)]
      cases hamount : config.convertNumberFromApi blockReward.attoAlphAmount with
      | error e => exact Or.inl ⟨Or.inr ⟨hmatured, e, rfl⟩, e, rfl⟩
      | ok amount =>
          refine Or.inr ⟨?_, _, rfl, rfl, Or.inr rfl⟩
          rintro (hzero | ⟨-, e, he⟩)
          · exact hlock hzero
          · contradiction
    · rw [if_pos (min_lt_of_right_lt (not_le.mp hmatured))]
      refine Or.inr ⟨?_, _, rfl, rfl, Or.inl rfl⟩
      rintro (hzero | ⟨hle, -⟩)
      · exact hlock hzero
      · exact hmatured hle

/-- A reward throws, or is lost and everything it took was answered, or leaves the block pending or
confirmed. -/
theorem classifyReward_cases (node : Node) (block : Block) (info : BlockEntry) (index : ℕ) :
    RewardThrows config node info index ∧ ¬RewardLost node info index ∧
        (∃ e, (classifyReward config node block info index).outcome = .error e) ∨
      ¬RewardThrows config node info index ∧ RewardLost node info index ∧
        classifyReward config node block info index = pure (some (orphaned block)) ∨
      ¬RewardThrows config node info index ∧ ¬RewardLost node info index ∧
        ∃ result, (classifyReward config node block info index).outcome = .ok (some result) ∧
          result.id = block.id ∧ (result.status = block.status ∨ result.status = .confirmed) := by
  rw [classifyReward, RewardThrows, RewardLost]
  cases htransaction : info.rewardTransaction with
  | none => simp
  | some transaction =>
      simp only [reduceCtorEq, false_or, Option.some.injEq, exists_eq_left']
      generalize transaction.fixedOutputs[index]? = output
      cases haddresses : node.minersAddresses with
      | none => simp
      | some addresses =>
          cases output with
          | none => simp
          | some blockReward =>
              by_cases hwallet : blockReward.address ∈ addresses
              · obtain ⟨hthrows, e, he⟩ | ⟨hthrows, result, hresult, hkept⟩ :=
                  @classifyPaid_cases config node.now block info blockReward
                · exact Or.inl (by simp [hwallet, hthrows, he])
                · right; right
                  simpa [hwallet, hthrows, hresult] using hkept
              · right; left
                refine ⟨by simp [hwallet], by simp [hwallet], ?_⟩
                rw [Guarded.bind_of_outcome_ok rfl]
                dsimp only
                rw [if_neg hwallet]
                rfl

theorem id_classifyReward {result : Block}
    (h : (classifyReward config node block info index).outcome = .ok (some result)) :
    result.id = block.id := by
  obtain ⟨-, -, e, he⟩ | ⟨-, -, hlost⟩ | ⟨-, -, other, hother, hid, -⟩ :=
    @classifyReward_cases config node block info index
  · rw [he] at h
    contradiction
  · rw [hlost] at h
    rw [← Option.some.inj (Except.ok.inj h)]
    rfl
  · rw [hother] at h
    rw [← Option.some.inj (Except.ok.inj h)]
    exact hid

theorem classifyReward_eq_error_iff :
    (∃ e, (classifyReward config node block info index).outcome = .error e) ↔
      RewardThrows config node info index := by
  obtain ⟨hthrows, -, he⟩ | ⟨hthrows, -, hlost⟩ | ⟨hthrows, -, other, hother, -⟩ :=
    @classifyReward_cases config node block info index
  · exact iff_of_true he hthrows
  · rw [hlost]
    exact iff_of_false (by simp) hthrows
  · rw [hother]
    exact iff_of_false (by simp) hthrows

/-- The block of a lost reward is orphaned, with everything answered that its reward was looked at
with. -/
theorem classifyReward_orphaned_iff (hstatus : block.status ≠ .orphaned) :
    (∃ result, (classifyReward config node block info index).outcome = .ok (some result) ∧
        result.status = .orphaned) ↔ RewardLost node info index := by
  obtain ⟨-, hlost, e, he⟩ | ⟨-, hlost, hresult⟩ |
      ⟨-, hlost, other, hother, -, hkept⟩ :=
    @classifyReward_cases config node block info index
  · rw [he]
    exact iff_of_false (by simp) hlost
  · rw [hresult]
    exact iff_of_true ⟨_, rfl, rfl⟩ hlost
  · rw [hother]
    refine iff_of_false ?_ hlost
    rintro ⟨result, hresult, horphaned⟩
    obtain rfl := Option.some.inj (Except.ok.inj hresult)
    rw [horphaned] at hkept
    simp [hstatus.symm] at hkept

/-- A reward that is found lost has been looked at with answers only. -/
theorem answered_classifyReward (h : RewardLost node info index) :
    (classifyReward config node block info index).answered = true := by
  obtain ⟨-, hlost, -⟩ | ⟨-, -, hresult⟩ | ⟨-, hlost, -⟩ :=
    @classifyReward_cases config node block info index
  · exact absurd h hlost
  · rw [hresult]
    rfl
  · exact absurd h hlost

/-- A failed call for the main chain is read as the answer that the block is not on it. -/
theorem getD_isBlockInMainChain :
    node.isBlockInMainChain.getD false = true ↔ node.isBlockInMainChain = some true := by
  cases node.isBlockInMainChain <;> simp

theorem outcome_classifyBlock : (classifyBlock config node block).outcome =
    if node.isBlockInMainChain = some true then
      match node.hash with
      | none => .error .nullReference
      | some info => (classifyReward config node { block with type := some "block" } info 0).outcome
    else
      match node.uncleHash with
      | none => .ok (some (orphaned { block with type := some "uncle" }))
      | some info => (classifyReward config node { block with type := some "uncle" } info
          (info.uncleOutput block.hash)).outcome := by
  rw [classifyBlock, Guarded.outcome_ask_bind]
  simp only [getD_isBlockInMainChain]
  split
  · cases node.hash <;> rfl
  · cases node.uncleHash <;> rfl

/-- Nothing is left unanswered that a block on the main chain is orphaned for. -/
theorem answered_of_main (hchain : node.isBlockInMainChain = some true) {info : BlockEntry}
    (hinfo : node.hash = some info) : (classifyBlock config node block).answered =
      (classifyReward config node { block with type := some "block" } info 0).answered := by
  rw [classifyBlock, Guarded.answered_ask_bind, if_pos (getD_isBlockInMainChain.mpr hchain),
    Guarded.answered_ask_bind, hchain, hinfo]
  rfl

theorem answered_of_not_main (hchain : node.isBlockInMainChain ≠ some true) :
    (classifyBlock config node block).answered =
      (node.isBlockInMainChain.isSome &&
        match node.uncleHash with
        | none => false
        | some info => (classifyReward config node { block with type := some "uncle" } info
            (info.uncleOutput block.hash)).answered) := by
  rw [classifyBlock, Guarded.answered_ask_bind, if_neg (mt getD_isBlockInMainChain.mp hchain),
    Guarded.answered_ask_bind]
  cases node.uncleHash <;> rfl

theorem keepsKey_classifyBlock (node : Block → Node) :
    KeepsKey fun block => classifyBlock config (node block) block := by
  intro block result hresult
  dsimp only at hresult
  rw [outcome_classifyBlock] at hresult
  split at hresult
  · cases hinfo : (node block).hash with
    | none =>
        rw [hinfo] at hresult
        contradiction
    | some info =>
        rw [hinfo] at hresult
        exact (id_classifyReward hresult :)
  · cases hinfo : (node block).uncleHash with
    | none =>
        rw [hinfo] at hresult
        obtain rfl := Option.some.inj (Except.ok.inj hresult)
        rfl
    | some info =>
        rw [hinfo] at hresult
        exact (id_classifyReward hresult :)

theorem classifyBlock_eq_error_iff :
    (∃ e, (classifyBlock config node block).outcome = .error e) ↔ Throws config node block := by
  rw [outcome_classifyBlock, Throws]
  split
  · cases node.hash with
    | none => simp
    | some info => simpa using classifyReward_eq_error_iff
  · cases node.uncleHash with
    | none => simp
    | some info => simpa using classifyReward_eq_error_iff

theorem orphanedUnanswered_classifyBlock_iff (node : Block → Node)
    (hpending : block.status = .pending) :
    OrphanedUnanswered (fun block => classifyBlock config (node block) block) block ↔
      OutageOrphans (node block) block := by
  have hstatus : block.status ≠ .orphaned := by
    rw [hpending]
    decide
  rw [OrphanedUnanswered, OutageOrphans, outcome_classifyBlock]
  generalize node block = node
  by_cases hchain : node.isBlockInMainChain = some true
  · rw [if_pos hchain]
    refine iff_of_false ?_ (not_and_of_not_left _ (not_not_intro hchain))
    rintro ⟨hanswered, result, hresult, horphaned⟩
    cases hinfo : node.hash with
    | none =>
        rw [hinfo] at hresult
        contradiction
    | some info =>
        rw [hinfo] at hresult
        have hlost :=
          (classifyReward_orphaned_iff (by exact hstatus)).mp ⟨result, hresult, horphaned⟩
        rw [answered_of_main hchain hinfo, answered_classifyReward hlost] at hanswered
        contradiction
  · rw [if_neg hchain, answered_of_not_main hchain]
    cases node.uncleHash with
    | none => simp [hchain, orphaned]
    | some info =>
        dsimp only
        rw [classifyReward_orphaned_iff (by exact hstatus)]
        constructor
        · rintro ⟨hanswered, hlost⟩
          rw [answered_classifyReward hlost] at hanswered
          refine ⟨hchain, Or.inr ⟨?_, info, rfl, hlost⟩⟩
          simpa using hanswered
        · rintro ⟨-, hnone | ⟨hnone, other, hother, hlost⟩⟩
          · contradiction
          · obtain rfl := Option.some.inj hother
            rw [hnone]
            exact ⟨rfl, hlost⟩

/-- When the cycles of an Alephium pool keep what the node did not answer for. -/
theorem keepsUnanswered_classifyBlocks_iff {pool : PoolConfig} (node : Block → Node)
    {rows : List Block} (hids : (rows.map Block.id).Nodup) :
    KeepsUnanswered pool (classifyBlocks config node)
        (fun row => (classifyBlock config (node row) row).answered = false) rows ↔
      (∃ row ∈ BlockRepository.getPendingBlocksForPool rows pool.id, Throws config (node row) row) ∨
        ∀ row ∈ BlockRepository.getPendingBlocksForPool rows pool.id,
          ¬OutageOrphans (node row) row := by
  rw [classifyBlocks, keepsUnanswered_iff (keepsKey_classifyBlock node) hids]
  refine or_congr ?_ ?_
  · simp only [classifyBlock_eq_error_iff]
  · refine forall₂_congr fun row hrow => not_congr ?_
    exact orphanedUnanswered_classifyBlock_iff node (mem_pending_iff.mp hrow).2.2

end AlephiumPayoutHandler

end Miningcore
