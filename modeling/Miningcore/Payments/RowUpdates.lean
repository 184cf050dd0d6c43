import Mathlib.Data.List.Perm.Basic
import Miningcore.Payments.PayoutManager

/-!
# What a cycle writes

A cycle writes the blocks it has classified into their rows, one transaction after
the other. A row whose block is not among them is kept, and if no transaction
fails every one of them is written.
-/

namespace Miningcore

open BlockRepository PayoutManager

theorem mem_pending_iff {rows : List Block} {poolId : String} {row : Block} :
    row ∈ getPendingBlocksForPool rows poolId ↔
      row ∈ rows ∧ row.poolId = poolId ∧ row.status = .pending := by
  rw [getPendingBlocksForPool, List.mem_filter, decide_eq_true_eq]

/-- What `updateBlock` makes of a row. -/
def writtenRow (block row : Block) : Block :=
  if row.id = block.id then
    { row with
      blockHeight := block.blockHeight
      status := block.status
      type := block.type
      reward := block.reward
      effort := block.effort
      minerEffort := block.minerEffort
      confirmationProgress := block.confirmationProgress
      hash := block.hash }
  else row

theorem updateBlock_eq_map (blocks : List Block) (block : Block) :
    updateBlock blocks block = blocks.map (writtenRow block) := rfl

/-- A row after its block was written. -/
structure WrittenFrom (block row row' : Block) : Prop where
  id : row'.id = row.id
  poolId : row'.poolId = row.poolId
  created : row'.created = row.created
  transactionConfirmationData : row'.transactionConfirmationData = row.transactionConfirmationData
  blockHeight : row'.blockHeight = block.blockHeight
  status : row'.status = block.status
  type : row'.type = block.type
  hash : row'.hash = block.hash

/-- A row before and after the blocks of a cycle were processed. -/
structure Updated (blocks : List Block) (finished : Prop) (row row' : Block) : Prop where
  kept : (∀ block ∈ blocks, block.id ≠ row.id) → row' = row
  written : ∀ block ∈ blocks, block.id = row.id → row' = row ∨ WrittenFrom block row row'
  finished : finished → ∀ block ∈ blocks, block.id = row.id → WrittenFrom block row row'

section updates

variable {handler : PayoutHandler} {scheme : PayoutScheme} {pool : PoolConfig}
  {ct : CancellationToken}

theorem writtenFrom_writtenRow {block row : Block} (db : Database) (h : row.id = block.id) :
    WrittenFrom block row (writtenRow (withEfforts handler pool block db) row) := by
  have hid : row.id = (withEfforts handler pool block db).id := h
  rw [writtenRow, if_pos hid]
  exact ⟨rfl, rfl, rfl, rfl, rfl, rfl, rfl, rfl⟩

theorem writtenRow_of_ne {block row : Block} (h : row.id ≠ block.id) : writtenRow block row = row :=
  if_neg h

/-- The blocks that were processed before a transaction failed, and the writing of their rows. -/
structure Progress (blocks done rest : List Block) (finished : Prop) (write : Block → Block) :
    Prop where
  split : blocks = done ++ rest
  finished : finished → rest = []
  kept : ∀ row, (∀ block ∈ done, block.id ≠ row.id) → write row = row
  written : ∀ block ∈ done, ∀ row, row.id = block.id → WrittenFrom block row (write row)

/-- One more block is processed ahead of others, whose rows are different. -/
theorem Progress.cons {block : Block} {blocks done rest : List Block} {finished : Prop}
    {write first : Block → Block} (h : Progress blocks done rest finished write)
    (hfresh : ∀ other ∈ blocks, other.id ≠ block.id)
    (hkept : ∀ row, row.id ≠ block.id → first row = row)
    (hwritten : ∀ row, row.id = block.id → WrittenFrom block row (first row)) :
    Progress (block :: blocks) (block :: done) rest finished (write ∘ first) where
  split := congrArg (List.cons block) h.split
  finished := h.finished
  kept row hnone := by
    rw [Function.comp_apply, hkept row (hnone block List.mem_cons_self).symm]
    exact h.kept row fun other hother => hnone other (List.mem_cons_of_mem _ hother)
  written other hother row hid := by
    rw [Function.comp_apply]
    obtain rfl | hother := List.mem_cons.mp hother
    · have hrow := hwritten row hid
      have hlater : write (first row) = first row := by
        apply h.kept
        intro later hlater
        rw [hrow.id, hid]
        apply hfresh
        rw [h.split]
        exact List.mem_append_left _ hlater
      rw [hlater]
      exact hrow
    · have hmem : other ∈ blocks := by
        rw [h.split]
        exact List.mem_append_left _ hother
      rw [hkept row fun hsame => hfresh other hmem (hid.symm.trans hsame)]
      exact h.written other hother row hid

/-- Blocks are processed in order until a transaction fails. -/
theorem exists_progress_processBlocks (hscheme : SettlesOnly scheme) {blocks : List Block}
    (hids : (blocks.map Block.id).Nodup) (now : ℕ) (db : Database) :
    ∃ done rest write,
      (processBlocks handler scheme pool ct now blocks db).1.blocks = db.blocks.map write ∧
        Progress blocks done rest
          (∃ n, (processBlocks handler scheme pool ct now blocks db).2 = .ok n) write := by
  induction blocks generalizing now db with
  | nil => exact ⟨[], [], id, (List.map_id _).symm, rfl, fun _ => rfl, fun _ _ => rfl, by simp⟩
  | cons block blocks ih =>
      rw [processBlocks, runTx]
      cases hblock : processBlock handler scheme pool ct now block db with
      | error e =>
          refine ⟨[], block :: blocks, id, (List.map_id _).symm, rfl, ?_, fun _ _ => rfl, by simp⟩
          rintro ⟨n, ⟨⟩⟩
      | ok result =>
          obtain ⟨db', now'⟩ := result
          obtain ⟨hfresh, hrest⟩ := List.nodup_cons.mp hids
          obtain ⟨done, rest, write, hwrite, hprogress⟩ := ih hrest now' db'
          refine ⟨block :: done, rest, write ∘ writtenRow (withEfforts handler pool block db), ?_,
            ?_⟩
          · rw [hwrite, blocks_processBlock hscheme hblock, updateBlock_eq_map, List.map_map]
          · apply hprogress.cons
            · intro other hother hid
              apply hfresh
              rw [← hid]
              exact List.mem_map_of_mem hother
            · exact fun row hid => writtenRow_of_ne hid
            · exact fun row hid => writtenFrom_writtenRow db hid

/-- A block in the part that was processed, or in the rest. -/
theorem Progress.updated {blocks done rest : List Block} {finished : Prop} {write : Block → Block}
    (h : Progress blocks done rest finished write) (hids : (blocks.map Block.id).Nodup)
    (row : Block) : Updated blocks finished row (write row) := by
  have hdone : ∀ block ∈ done, block ∈ blocks := by
    intro block hblock
    rw [h.split]
    exact List.mem_append_left _ hblock
  refine ⟨fun hnone => h.kept row fun block hblock => hnone block (hdone block hblock), ?_, ?_⟩
  · intro block hblock hid
    by_cases hmem : block ∈ done
    · exact Or.inr (h.written block hmem row hid.symm)
    · refine Or.inl (h.kept row fun other hother hsame => hmem ?_)
      obtain rfl := List.inj_on_of_nodup_map hids (hdone other hother) hblock (hsame.trans hid.symm)
      exact hother
  · intro hfinished block hblock hid
    rw [h.split, h.finished hfinished, List.append_nil] at hblock
    exact h.written block hblock row hid.symm

theorem Updated.id_eq {blocks : List Block} {finished : Prop} {row row' : Block}
    (h : Updated blocks finished row row') : row'.id = row.id := by
  by_cases hnone : ∀ block ∈ blocks, block.id ≠ row.id
  · rw [h.kept hnone]
  · push Not at hnone
    obtain ⟨block, hblock, hid⟩ := hnone
    obtain rfl | hwritten := h.written block hblock hid
    · rfl
    · exact hwritten.id

theorem Updated.perm {blocks blocks' : List Block} {finished : Prop} {row row' : Block}
    (h : Updated blocks finished row row') (hperm : blocks.Perm blocks') :
    Updated blocks' finished row row' where
  kept hnone := h.kept fun block hblock => hnone block (hperm.subset hblock)
  written block hblock := h.written block (hperm.symm.subset hblock)
  finished hfinished block hblock := h.finished hfinished block (hperm.symm.subset hblock)

/-- Processing blocks updates each row on its own. -/
theorem updated_processBlocks (hscheme : SettlesOnly scheme) {blocks : List Block}
    (hids : (blocks.map Block.id).Nodup) (now : ℕ) (db : Database) :
    ∃ write : Block → Block,
      (processBlocks handler scheme pool ct now blocks db).1.blocks = db.blocks.map write ∧
        ∀ row, Updated blocks
          (∃ n, (processBlocks handler scheme pool ct now blocks db).2 = .ok n) row
          (write row) := by
  obtain ⟨done, rest, write, hwrite, hprogress⟩ :=
    @exists_progress_processBlocks handler scheme pool ct hscheme blocks hids now db
  exact ⟨write, hwrite, hprogress.updated hids⟩

/-- A row that has changed was written behind those of the earlier blocks. -/
theorem Progress.written_earlier {blocks done rest : List Block} {finished : Prop}
    {write : Block → Block} (h : Progress blocks done rest finished write)
    (hids : (blocks.map Block.id).Nodup)
    (hsorted : blocks.Pairwise fun a b => a.created ≤ b.created) {block block' row row' : Block}
    (hblock : block ∈ blocks) (hblock' : block' ∈ blocks)
    (hearlier : block.created < block'.created)
    (hid : row.id = block.id) (hid' : row'.id = block'.id) (hchanged : write row' ≠ row') :
    WrittenFrom block row (write row) := by
  have hdone' : block' ∈ done := by
    by_contra hnot
    refine hchanged (h.kept row' fun other hother hsame => hnot ?_)
    have hmem : other ∈ blocks := by
      rw [h.split]
      exact List.mem_append_left _ hother
    obtain rfl := List.inj_on_of_nodup_map hids hmem hblock' (hsame.trans hid')
    exact hother
  have hdone : block ∈ done := by
    rw [h.split] at hblock hsorted
    refine (List.mem_append.mp hblock).resolve_right fun hrest => ?_
    have hle := (List.pairwise_append.mp hsorted).2.2 block' hdone' block hrest
    exact absurd hearlier (not_lt_of_ge hle)
  exact h.written block hdone row hid

/-- A cycle processes what the classification returns in the order of creation. -/
theorem exists_progress_updatePoolBalances (hscheme : SettlesOnly scheme) (now : ℕ)
    {classify : List Block → Except Exception (List Block)} {db : Database} {results : List Block}
    (hclassify : classify (getPendingBlocksForPool db.blocks pool.id) = .ok results)
    (hids : (results.map Block.id).Nodup) :
    ∃ blocks done rest write, blocks.Perm results ∧
      blocks.Pairwise (fun a b => a.created ≤ b.created) ∧
        (updatePoolBalances handler scheme pool ct now classify db).1.blocks =
          db.blocks.map write ∧
        Progress blocks done rest
          (∃ n, (updatePoolBalances handler scheme pool ct now classify db).2 = .ok n) write := by
  rw [updatePoolBalances, hclassify]
  dsimp only
  have hperm := List.perm_insertionSort (fun a b : Block => a.created ≤ b.created) results
  obtain ⟨done, rest, write, hwrite, hprogress⟩ := @exists_progress_processBlocks handler scheme
    pool ct hscheme _ ((hperm.map Block.id).nodup_iff.mpr hids) now db
  have hsorted := List.pairwise_insertionSort (fun a b : Block => a.created ≤ b.created) results
  exact ⟨_, done, rest, write, hperm, hsorted, hwrite, hprogress⟩

/-- What a cycle makes of the rows, when the classification returns blocks. -/
theorem updated_updatePoolBalances (hscheme : SettlesOnly scheme) (now : ℕ)
    {classify : List Block → Except Exception (List Block)} {db : Database} {results : List Block}
    (hclassify : classify (getPendingBlocksForPool db.blocks pool.id) = .ok results)
    (hids : (results.map Block.id).Nodup) :
    ∃ write : Block → Block,
      (updatePoolBalances handler scheme pool ct now classify db).1.blocks = db.blocks.map write ∧
        ∀ row, Updated results
          (∃ n, (updatePoolBalances handler scheme pool ct now classify db).2 = .ok n) row
          (write row) := by
  obtain ⟨blocks, done, rest, write, hperm, -, hwrite, hprogress⟩ :=
    @exists_progress_updatePoolBalances handler scheme pool ct hscheme now classify db results
      hclassify hids
  have hids' := (hperm.map Block.id).nodup_iff.mpr hids
  exact ⟨write, hwrite, fun row => (hprogress.updated hids' row).perm hperm⟩

/-- What the blocks of a cycle write into rows holds of the rows it leaves. -/
theorem forall_blocks_processBlocks (hscheme : SettlesOnly scheme) {holds : Block → Prop}
    {blocks : List Block}
    (hwrite : ∀ block ∈ blocks, ∀ db row, holds row →
      holds (writtenRow (withEfforts handler pool block db) row)) (now : ℕ) (db : Database)
    (h : ∀ row ∈ db.blocks, holds row) :
    ∀ row ∈ (processBlocks handler scheme pool ct now blocks db).1.blocks, holds row := by
  induction blocks generalizing now db with
  | nil => exact h
  | cons block blocks ih =>
      rw [processBlocks, runTx]
      cases hblock : processBlock handler scheme pool ct now block db with
      | error e => exact h
      | ok result =>
          obtain ⟨db', now'⟩ := result
          apply ih fun other hother => hwrite other (List.mem_cons_of_mem block hother)
          have hblocks := blocks_processBlock hscheme hblock
          rw [updateBlock_eq_map] at hblocks
          dsimp only at hblocks
          rw [hblocks]
          intro row hrow
          obtain ⟨before, hbefore, rfl⟩ := List.mem_map.mp hrow
          exact hwrite block List.mem_cons_self db before (h before hbefore)

theorem forall_blocks_updatePoolBalances (hscheme : SettlesOnly scheme) {holds : Block → Prop}
    {classify : List Block → Except Exception (List Block)} {db : Database}
    (hwrite : ∀ results, classify (getPendingBlocksForPool db.blocks pool.id) = .ok results →
      ∀ block ∈ results, ∀ db row, holds row →
        holds (writtenRow (withEfforts handler pool block db) row)) (now : ℕ)
    (h : ∀ row ∈ db.blocks, holds row) :
    ∀ row ∈ (updatePoolBalances handler scheme pool ct now classify db).1.blocks, holds row := by
  rw [updatePoolBalances]
  cases hclassify : classify (getPendingBlocksForPool db.blocks pool.id) with
  | error e => exact h
  | ok results =>
      have hsorted : ∀ block ∈ results.insertionSort fun a b => a.created ≤ b.created,
          ∀ db row, holds row → holds (writtenRow (withEfforts handler pool block db) row) :=
        fun block hblock =>
          hwrite results hclassify block ((List.mem_insertionSort _).mp hblock)
      exact forall_blocks_processBlocks hscheme hsorted now db h

end updates

end Miningcore
