import Miningcore.Blockchain.Ethereum.BlockRewards
import Miningcore.Foundation.HexDigits
import Miningcore.Payments.RowUpdates

/-!
# Classification of Ethereum blocks

A row at a height whose block the pool has mined is a block, or an uncle when a
later row records the same height. Any other row is an uncle if one of the pool's
is referenced by a block near its height.

## Implementation notes

The blocks of a cycle are looked up in a cache, all other answers of the node
are given for a row. A call that fails or answers null is `none`. Heights are 64-bit
numbers, decimals and doubles are rational numbers.
-/

namespace Miningcore

open Foundation BlockRepository

namespace Ethereum

structure Transaction where
  hash : String
  gasPrice : ℕ
deriving DecidableEq

structure ChainBlock where
  hash : String
  miner : String
  /-- The hashes of the uncles. -/
  uncles : List String
  baseFeePerGas : ℕ
  gasUsed : ℕ
  transactions : List Transaction
deriving DecidableEq

structure Uncle where
  hash : String
  height : ℕ
  miner : String
deriving DecidableEq

/-- The answers of the node in a cycle. Answers that are not cached come for the id of a row. -/
structure Node where
  enoughPeers : Bool
  /-- The head that the page of a row is classified with. -/
  latest : ℕ → Option ℕ
  /-- The cached block at a height. -/
  blockAt : ℕ → Option ChainBlock
  /-- The block at a height, asked for again. -/
  current : ℕ → ℕ → Option ChainBlock
  /-- An uncle of the block at a height, by its index. -/
  uncleAt : ℕ → ℕ → ℕ → Option Uncle
  /-- The gas that the transactions of a block have used. -/
  receipts : ℕ → ℕ → Except Exception (List (String × ℕ))

end Ethereum

structure EthereumClassifyConfig where
  chainType : GethChainType
  chainTypeOverride : Option String := none
  keepUncles : Bool := false
  keepTransactionFees : Bool := false
  blockSearchOffset : ℕ := 50
  maxUncles : ℤ := 2
deriving DecidableEq

namespace EthereumPayoutHandler

open Ethereum

def minConfirmations : ℕ := 16

def wei : ℚ := 10 ^ 18

/-- How far a height is behind the head. A head below the height wraps around. -/
def behind (latest height : ℕ) : ℕ := subUlong latest height

def sameAddress (a b : String) : Bool := ignoringCase a.toList = ignoringCase b.toList

def getTxReward (transactions : List Transaction) (receipts : List (String × ℕ)) :
    Except Exception ℚ :=
  if ¬(receipts.map Prod.fst).Nodup then
    .error (.argument "An item with the same key has already been added.")
  else
    transactions.foldr (fun transaction total =>
      match total, receipts.lookup transaction.hash with
      | .error e, _ => .error e
      | .ok _, none => .error (.keyNotFound transaction.hash)
      | .ok total, some gasUsed => .ok (gasUsed * (transaction.gasPrice / wei) + total)) (.ok 0)

/-- The chains whose base fee is burned. -/
def burnsFee (config : EthereumClassifyConfig) : Bool :=
  config.chainTypeOverride ∈ [some "Ethereum", some "Main", some "MainPow", some "Ubiq",
    some "EtherOne", some "Pink", some "Hypra"]

section classification

variable (config : EthereumClassifyConfig) (pool : PoolConfig) (rows : List Block) (node : Node)

/-- The reward of a block of the chain, as it is looked up first and again. -/
def blockReward (row : Block) (info current : ChainBlock) : Except Exception ℚ :=
  match getBaseBlockReward config.chainType row.blockHeight with
  | .error e => .error e
  | .ok base =>
      let reward := if config.keepUncles then base else base + info.uncles.length * (base / 32)
      let burnedFee : ℚ :=
        if burnsFee config then (current.baseFeePerGas * current.gasUsed % 2 ^ 64 : ℕ) / wei else 0
      if config.keepTransactionFees ∨ info.transactions.length = 0 then .ok reward
      else
        match node.receipts row.id row.blockHeight with
        | .error e => .error e
        | .ok receipts =>
            match getTxReward info.transactions receipts with
            | .error e => .error e
            | .ok fees => .ok (reward + (fees - burnedFee))

/-- The rows that are older than a row, at a height. -/
def totalDuplicateBlockBefore (row : Block) (height : ℕ) : ℕ :=
  getPoolDuplicateBlockBeforeCountByPoolHeightNoTypeAndStatus rows pool.id height
    [.confirmed, .orphaned, .pending] row.created

/-- Whether other rows of the height are pending, and a later one is among them. -/
def isDuplicated (row : Block) : Bool :=
  1 < getPoolDuplicateBlockCountByPoolHeightNoTypeAndStatus rows pool.id row.blockHeight
      [row.status] ∧
    0 < getPoolDuplicateBlockAfterCountByPoolHeightNoTypeAndStatus rows pool.id row.blockHeight
      [row.status] row.created

/-- An uncle whose reward is zero is orphaned. -/
def asUncle (row : Block) (reward : ℚ) : Block :=
  if 0 < reward then
    { row with
      status := .confirmed
      confirmationProgress := 1
      reward := reward
      type := some "uncle" }
  else { row with status := .orphaned, reward := 0, type := some "uncle" }

/-- A row that has matured, at a height whose block the pool has mined. -/
def classifyMined (row : Block) (info : ChainBlock) : Except Exception Block :=
  if isDuplicated pool rows row then
    match getUncleReward config.chainType row.blockHeight row.blockHeight
        (totalDuplicateBlockBefore pool rows row row.blockHeight) config.maxUncles with
    | .error e => .error e
    | .ok reward => .ok { asUncle row reward with confirmationProgress := 1 }
  else
    match node.current row.id row.blockHeight with
    | none => .error .nullReference
    | some current =>
        if sameAddress current.miner pool.address then
          match blockReward config node row info current with
          | .error e => .error e
          | .ok reward =>
              .ok { row with
                hash := some current.hash
                status := .confirmed
                confirmationProgress := 1
                reward := reward
                type := some "block" }
        else .ok row

/-- The first uncle of a block that the pool has mined. -/
def ownUncle (row : Block) (height : ℕ) (info : ChainBlock) : Option Uncle :=
  ((List.range info.uncles.length).filterMap (node.uncleAt row.id height)).find? fun uncle =>
    sameAddress uncle.miner pool.address

/-- The search for an uncle of the pool. An uncle at a height that already has one is passed over,
and one that is immature ends the search. -/
def searchUncle (latest : ℕ) : List (ℕ × ChainBlock) → Block → Except Exception Block
  | [], row => .ok row
  | (height, info) :: rest, row =>
      match ownUncle pool node row height info with
      | none => searchUncle latest rest row
      | some uncle =>
          let reward := getUncleReward config.chainType uncle.height height
            (totalDuplicateBlockBefore pool rows row uncle.height) config.maxUncles
          match if row.reward = 0 then reward else .ok row.reward with
          | .error e => .error e
          | .ok expected =>
              let row := { row with reward := expected }
              if minConfirmations ≤ behind latest uncle.height then
                match getBlockByPoolHeightAndType rows pool.id uncle.height "uncle" with
                | some _ => searchUncle latest rest row
                | none =>
                    match reward with
                    | .error e => .error e
                    | .ok reward =>
                        .ok (asUncle
                          { row with hash := some uncle.hash, blockHeight := uncle.height } reward)
              else .ok row

/-- The heights that are searched, in both directions. -/
def searchRange (latest height : ℕ) : List ℕ :=
  let heightMin := subUlong height config.blockSearchOffset
  let heightMax := min (addUlong height config.blockSearchOffset) latest
  (List.range (heightMax - heightMin)).map (heightMin + ·)

def fetchBlocks : List ℕ → Except Exception (List (ℕ × ChainBlock))
  | [] => .ok []
  | height :: rest =>
      match node.blockAt height, fetchBlocks rest with
      | some info, .ok infos => .ok ((height, info) :: infos)
      | none, _ => .error (.keyNotFound (toString height))
      | _, .error e => .error e

/-- A row that no uncle is found for is lost when it is old. -/
def giveUp (row : Block) : Block :=
  if row.status = .pending ∧ 3 / 4 < row.confirmationProgress then
    { row with hash := some "0x0", status := .orphaned, reward := 0 }
  else row

/-- A row at a height whose block somebody else has mined. -/
def classifyMissed (latest : ℕ) (row : Block) : Except Exception Block :=
  match fetchBlocks node (searchRange config latest row.blockHeight) with
  | .error e => .error e
  | .ok infos =>
      match searchUncle config pool rows node latest infos row with
      | .error e => .error e
      | .ok row => .ok (giveUp row)

def withProgress (latest : ℕ) (row : Block) : Block :=
  { row with
    confirmationProgress := min 1 ((behind latest row.blockHeight : ℚ) / minConfirmations) }

def classifyBlock (row : Block) : Except Exception Block :=
  match node.latest row.id with
  | none => .error .nullReference
  | some latest =>
      match node.blockAt row.blockHeight with
      | none => .error (.keyNotFound (toString row.blockHeight))
      | some info =>
          let row := withProgress latest row
          if sameAddress info.miner pool.address then
            if minConfirmations ≤ behind latest row.blockHeight then
              classifyMined config pool rows node row info
            else .ok row
          else classifyMissed config pool rows node latest row

/-- All rows of a batch are classified against the rows that are stored. -/
def classifyAll : List Block → Except Exception (List Block)
  | [] => .ok []
  | row :: rest =>
      match classifyBlock config pool rows node row with
      | .error e => .error e
      | .ok block =>
          match classifyAll rest with
          | .error e => .error e
          | .ok blocks => .ok (block :: blocks)

/-- `ClassifyBlocksAsync`, which goes through the pages of the blocks in order. -/
def classifyBlocks (blocks : List Block) : Except Exception (List Block) :=
  if node.enoughPeers then classifyAll config pool rows node blocks else .ok blocks

end classification

/-! ## What a row is classified as -/

section verdicts

variable {config : EthereumClassifyConfig} {pool : PoolConfig} {rows : List Block} {node : Node}
  {latest : ℕ} {row block : Block}

/-- The head that a row is classified with is far enough ahead. -/
def Matured (node : Node) (id height : ℕ) : Prop :=
  ∃ latest, node.latest id = some latest ∧ minConfirmations ≤ behind latest height

/-- The block at the height of a row has been mined by the pool. -/
def Mined (pool : PoolConfig) (node : Node) (row : Block) : Prop :=
  ∃ info, node.blockAt row.blockHeight = some info ∧ sameAddress info.miner pool.address = true

/-- A block in the span of a row references an uncle of the pool. -/
def References (config : EthereumClassifyConfig) (pool : PoolConfig) (node : Node) (row : Block)
    (uncle : Uncle) : Prop :=
  ∃ latest, node.latest row.id = some latest ∧
    ∃ height ∈ searchRange config latest row.blockHeight,
      ∃ info, node.blockAt height = some info ∧
        (∃ index < info.uncles.length, node.uncleAt row.id height index = some uncle) ∧
          sameAddress uncle.miner pool.address = true

/-- What a row becomes, and what it becomes it for. -/
inductive Verdict (config : EthereumClassifyConfig) (pool : PoolConfig) (rows : List Block)
    (node : Node) (row block : Block) : Prop
  | stays : (Mined pool node row → Matured node row.id row.blockHeight →
        isDuplicated pool rows row = false) →
      block.status = row.status → block.blockHeight = row.blockHeight →
      Verdict config pool rows node row block
  | block (current : ChainBlock) : Mined pool node row → Matured node row.id row.blockHeight →
      isDuplicated pool rows row = false →
      node.current row.id row.blockHeight = some current →
      sameAddress current.miner pool.address = true → block.status = .confirmed →
      block.type = some "block" → block.hash = some current.hash →
      block.blockHeight = row.blockHeight → Verdict config pool rows node row block
  | duplicate : Mined pool node row → Matured node row.id row.blockHeight →
      isDuplicated pool rows row = true →
      block.status ≠ .pending → block.type = some "uncle" →
      block.blockHeight = row.blockHeight → Verdict config pool rows node row block
  | uncle (uncle : Uncle) : ¬Mined pool node row → References config pool node row uncle →
      Matured node row.id uncle.height →
      getBlockByPoolHeightAndType rows pool.id uncle.height "uncle" = none →
      block.status ≠ .pending → block.type = some "uncle" → block.hash = some uncle.hash →
      block.blockHeight = uncle.height → Verdict config pool rows node row block
  | lost : ¬Mined pool node row → block.status = .orphaned →
      block.blockHeight = row.blockHeight → Verdict config pool rows node row block

/-- The columns that no classification changes. -/
def SameRow (row block : Block) : Prop :=
  block.id = row.id ∧ block.poolId = row.poolId ∧ block.created = row.created

theorem SameRow.trans {row block block' : Block} (h : SameRow row block)
    (h' : SameRow block block') : SameRow row block' :=
  ⟨h'.1.trans h.1, h'.2.1.trans h.2.1, h'.2.2.trans h.2.2⟩

theorem asUncle_cases (row : Block) (reward : ℚ) :
    SameRow row (asUncle row reward) ∧ (asUncle row reward).status ≠ .pending ∧
      (asUncle row reward).type = some "uncle" ∧ (asUncle row reward).hash = row.hash ∧
        (asUncle row reward).blockHeight = row.blockHeight := by
  rw [asUncle]
  split
  · exact ⟨⟨rfl, rfl, rfl⟩, BlockStatus.noConfusion, rfl, rfl, rfl⟩
  · exact ⟨⟨rfl, rfl, rfl⟩, BlockStatus.noConfusion, rfl, rfl, rfl⟩

theorem verdict_classifyMined {info : ChainBlock} (hmined : Mined pool node row)
    (hmatured : Matured node row.id row.blockHeight)
    (h : classifyMined config pool rows node row info = .ok block) :
    SameRow row block ∧ Verdict config pool rows node row block := by
  rw [classifyMined] at h
  split at h
  · rename_i hduplicated
    split at h
    · contradiction
    · rename_i reward _
      obtain rfl := Except.ok.inj h
      obtain ⟨hsame, hstatus, htype, -, hheight⟩ := asUncle_cases row reward
      exact ⟨hsame, .duplicate hmined hmatured hduplicated hstatus htype hheight⟩
  · rename_i hduplicated
    split at h
    · contradiction
    · rename_i current hcurrent
      split at h
      · rename_i hminer
        split at h
        · contradiction
        · obtain rfl := Except.ok.inj h
          exact ⟨⟨rfl, rfl, rfl⟩, .block current hmined hmatured
            (Bool.eq_false_iff.mpr hduplicated) hcurrent hminer rfl rfl rfl rfl⟩
      · obtain rfl := Except.ok.inj h
        exact ⟨⟨rfl, rfl, rfl⟩, .stays (fun _ _ => Bool.eq_false_iff.mpr hduplicated) rfl rfl⟩

theorem ownUncle_eq_some {height : ℕ} {info : ChainBlock} {uncle : Uncle}
    (h : ownUncle pool node row height info = some uncle) :
    (∃ index < info.uncles.length, node.uncleAt row.id height index = some uncle) ∧
      sameAddress uncle.miner pool.address = true := by
  rw [ownUncle] at h
  have hminer :=
    @List.find?_some _ (fun uncle : Uncle => sameAddress uncle.miner pool.address) _ _ h
  refine ⟨?_, hminer⟩
  obtain ⟨index, hindex, huncle⟩ := List.mem_filterMap.mp (List.mem_of_find?_eq_some h)
  exact ⟨index, List.mem_range.mp hindex, huncle⟩

theorem mem_fetchBlocks {heights : List ℕ} {infos : List (ℕ × ChainBlock)}
    (h : fetchBlocks node heights = .ok infos) {height : ℕ} {info : ChainBlock}
    (hmem : (height, info) ∈ infos) : height ∈ heights ∧ node.blockAt height = some info := by
  induction heights generalizing infos with
  | nil =>
      obtain rfl := Except.ok.inj h
      exact absurd hmem List.not_mem_nil
  | cons first heights ih =>
      rw [fetchBlocks] at h
      split at h
      · rename_i other others hother hothers
        obtain rfl := Except.ok.inj h
        obtain heq | hmem := List.mem_cons.mp hmem
        · obtain ⟨rfl, rfl⟩ := Prod.mk.inj heq
          exact ⟨List.mem_cons_self, hother⟩
        · obtain ⟨hheight, hinfo⟩ := ih hothers hmem
          exact ⟨List.mem_cons_of_mem _ hheight, hinfo⟩
      · contradiction
      · contradiction

/-- A search over blocks ends with an uncle. -/
def EndsWithUncle (pool : PoolConfig) (rows : List Block) (node : Node) (latest : ℕ)
    (infos : List (ℕ × ChainBlock)) (row block : Block) : Prop :=
  ∃ height info uncle, (height, info) ∈ infos ∧ ownUncle pool node row height info = some uncle ∧
    minConfirmations ≤ behind latest uncle.height ∧
      getBlockByPoolHeightAndType rows pool.id uncle.height "uncle" = none ∧
        block.status ≠ .pending ∧ block.type = some "uncle" ∧ block.hash = some uncle.hash ∧
          block.blockHeight = uncle.height

theorem EndsWithUncle.cons {infos : List (ℕ × ChainBlock)} (first : ℕ × ChainBlock)
    (h : EndsWithUncle pool rows node latest infos row block) :
    EndsWithUncle pool rows node latest (first :: infos) row block := by
  obtain ⟨height, info, uncle, hmem, huncle⟩ := h
  exact ⟨height, info, uncle, List.mem_cons_of_mem first hmem, huncle⟩

/-- A search keeps the row, apart from its reward, or ends with an uncle. -/
theorem searchUncle_cases {infos : List (ℕ × ChainBlock)}
    (h : searchUncle config pool rows node latest infos row = .ok block) :
    SameRow row block ∧ (block.status = row.status ∧ block.blockHeight = row.blockHeight ∨
      EndsWithUncle pool rows node latest infos row block) := by
  induction infos generalizing row with
  | nil =>
      obtain rfl := Except.ok.inj h
      exact ⟨⟨rfl, rfl, rfl⟩, Or.inl ⟨rfl, rfl⟩⟩
  | cons first infos ih =>
      obtain ⟨height, info⟩ := first
      rw [searchUncle] at h
      split at h
      · obtain ⟨hsame, hrest⟩ := ih h
        exact ⟨hsame, hrest.imp_right (EndsWithUncle.cons _)⟩
      · rename_i uncle huncle
        dsimp only at h
        split at h
        · contradiction
        · rename_i expected _
          split at h
          · rename_i hmatured
            split at h
            · obtain ⟨hsame, hrest⟩ := ih h
              exact ⟨hsame, hrest.imp_right (EndsWithUncle.cons _)⟩
            · rename_i hfree
              split at h
              · contradiction
              · rename_i reward _
                obtain rfl := Except.ok.inj h
                obtain ⟨hsame, hstatus, htype, hhash, hheight⟩ := asUncle_cases
                  { row with
                    reward := expected, hash := some uncle.hash, blockHeight := uncle.height }
                  reward
                exact ⟨hsame, Or.inr ⟨height, info, uncle, List.mem_cons_self, huncle, hmatured,
                  hfree, hstatus, htype, hhash, hheight⟩⟩
          · obtain rfl := Except.ok.inj h
            exact ⟨⟨rfl, rfl, rfl⟩, Or.inl ⟨rfl, rfl⟩⟩

theorem of_classifyMissed_eq_ok (h : classifyMissed config pool rows node latest row = .ok block) :
    ∃ infos found, fetchBlocks node (searchRange config latest row.blockHeight) = .ok infos ∧
      searchUncle config pool rows node latest infos row = .ok found ∧ block = giveUp found := by
  rw [classifyMissed] at h
  split at h
  · contradiction
  · rename_i infos hinfos
    split at h
    · contradiction
    · rename_i found hfound
      exact ⟨infos, found, hinfos, hfound, (Except.ok.inj h).symm⟩

theorem verdict_classifyMissed (hlatest : node.latest row.id = some latest)
    (hmissed : ¬Mined pool node row)
    (h : classifyMissed config pool rows node latest row = .ok block) :
    SameRow row block ∧ Verdict config pool rows node row block := by
  obtain ⟨infos, found, hinfos, hfound, rfl⟩ := of_classifyMissed_eq_ok h
  obtain ⟨hsame, ⟨hstatus, hheight⟩ | ⟨height, info, uncle, hmem, huncle, hmatured, hfree,
    hstatus, htype, hhash, hheight⟩⟩ := searchUncle_cases hfound
  · rw [giveUp]
    split
    · exact ⟨hsame, .lost hmissed rfl hheight⟩
    · exact ⟨hsame, .stays (fun hmined => absurd hmined hmissed) hstatus hheight⟩
  · rw [giveUp, if_neg (fun hpending => hstatus hpending.1)]
    obtain ⟨hheight', hinfo⟩ := mem_fetchBlocks hinfos hmem
    obtain ⟨hindex, hminer⟩ := ownUncle_eq_some huncle
    exact ⟨hsame, .uncle uncle hmissed
      ⟨latest, hlatest, height, hheight', info, hinfo, hindex, hminer⟩
      ⟨latest, hlatest, hmatured⟩ hfree hstatus htype hhash hheight⟩

/-- The progress of a row plays no part in its verdict. -/
theorem Verdict.of_withProgress
    (h : Verdict config pool rows node (withProgress latest row) block) :
    Verdict config pool rows node row block := by
  cases h with
  | stays hopen hstatus hheight => exact .stays hopen hstatus hheight
  | block current hmined hmatured hduplicated hcurrent hminer hstatus htype hhash hheight =>
      exact .block current hmined hmatured hduplicated hcurrent hminer hstatus htype hhash hheight
  | duplicate hmined hmatured hduplicated hstatus htype hheight =>
      exact .duplicate hmined hmatured hduplicated hstatus htype hheight
  | uncle uncle hmissed hreferences hmatured hfree hstatus htype hhash hheight =>
      exact .uncle uncle hmissed hreferences hmatured hfree hstatus htype hhash hheight
  | lost hmissed hstatus hheight => exact .lost hmissed hstatus hheight

/-- The three ways that a row can go. -/
theorem classifyBlock_cases (h : classifyBlock config pool rows node row = .ok block) :
    ∃ latest, node.latest row.id = some latest ∧
      (Mined pool node row ∧ minConfirmations ≤ behind latest row.blockHeight ∧
          (∃ info, classifyMined config pool rows node (withProgress latest row) info =
            .ok block) ∨
        Mined pool node row ∧ behind latest row.blockHeight < minConfirmations ∧
          block = withProgress latest row ∨
        ¬ Mined pool node row ∧
          classifyMissed config pool rows node latest (withProgress latest row) = .ok block) := by
  rw [classifyBlock] at h
  split at h
  · contradiction
  · rename_i latest hlatest
    refine ⟨latest, hlatest, ?_⟩
    split at h
    · contradiction
    · rename_i info hinfo
      dsimp only at h
      split at h
      · rename_i hminer
        have hmined : Mined pool node row := ⟨info, hinfo, hminer⟩
        split at h
        · rename_i hmatured
          exact Or.inl ⟨hmined, hmatured, info, h⟩
        · rename_i hyoung
          exact Or.inr (Or.inl ⟨hmined, not_le.mp hyoung, (Except.ok.inj h).symm⟩)
      · rename_i hother
        refine Or.inr (Or.inr ⟨?_, h⟩)
        rintro ⟨info', hinfo', hminer⟩
        obtain rfl := Option.some.inj (hinfo.symm.trans hinfo')
        exact hother hminer

theorem verdict_classifyBlock (h : classifyBlock config pool rows node row = .ok block) :
    SameRow row block ∧ Verdict config pool rows node row block := by
  obtain ⟨latest, hlatest, ⟨hmined, hmatured, info, hblock⟩ | ⟨-, hyoung, rfl⟩ |
    ⟨hmissed, hblock⟩⟩ := classifyBlock_cases h
  · have hmined' : Mined pool node (withProgress latest row) := hmined
    obtain ⟨hsame, hverdict⟩ := verdict_classifyMined hmined' ⟨latest, hlatest, hmatured⟩ hblock
    exact ⟨hsame, hverdict.of_withProgress⟩
  · refine ⟨⟨rfl, rfl, rfl⟩, .stays (fun _ hmatured => ?_) rfl rfl⟩
    obtain ⟨latest', hlatest', hmatured⟩ := hmatured
    obtain rfl := Option.some.inj (hlatest.symm.trans hlatest')
    exact absurd hyoung (not_lt.mpr hmatured)
  · have hlatest' : node.latest (withProgress latest row).id = some latest := hlatest
    obtain ⟨hsame, hverdict⟩ := verdict_classifyMissed hlatest' hmissed hblock
    exact ⟨hsame, hverdict.of_withProgress⟩

end verdicts

end EthereumPayoutHandler

end Miningcore
