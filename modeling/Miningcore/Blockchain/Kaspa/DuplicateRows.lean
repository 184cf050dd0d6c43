import Mathlib.Data.List.Induction
import Miningcore.Blockchain.Kaspa.KaspaPayoutHandler
import Miningcore.Payments.RowUpdates

/-!
# Rows of one block

Several rows may record one block. Which of them survives is decided by the
times of their creation, and every cycle classifies each row on its own.
-/

namespace Miningcore

open BlockRepository PayoutManager

/-! ## What a cycle writes -/

/-- The columns no cycle changes. -/
structure SameKey (row row' : Block) : Prop where
  id : row'.id = row.id
  poolId : row'.poolId = row.poolId
  blockHeight : row'.blockHeight = row.blockHeight
  hash : row'.hash = row.hash
  created : row'.created = row.created

theorem SameKey.refl (row : Block) : SameKey row row := ⟨rfl, rfl, rfl, rfl, rfl⟩

theorem SameKey.trans {row row' row'' : Block} (h : SameKey row row') (h' : SameKey row' row'') :
    SameKey row row'' :=
  ⟨h'.id.trans h.id, h'.poolId.trans h.poolId, h'.blockHeight.trans h.blockHeight,
    h'.hash.trans h.hash, h'.created.trans h.created⟩

theorem SameKey.symm {row row' : Block} (h : SameKey row row') : SameKey row' row :=
  ⟨h.id.symm, h.poolId.symm, h.blockHeight.symm, h.hash.symm, h.created.symm⟩

/-- A row after blocks were processed: its status is that of the block with its id, if there is one
and it was reached. -/
structure Written (blocks : List Block) (finished : Prop) (row row' : Block) : Prop where
  key : SameKey row row'
  kept : (∀ block ∈ blocks, block.id ≠ row.id) → row'.status = row.status
  status : ∀ block ∈ blocks, block.id = row.id →
    row'.status = row.status ∨ row'.status = block.status
  finished : finished → ∀ block ∈ blocks, block.id = row.id → row'.status = block.status

/-- A row that is updated with blocks of its key is written. -/
theorem Updated.written_of_keys {blocks : List Block} {finished : Prop} {row row' : Block}
    (h : Updated blocks finished row row')
    (hkeys : ∀ block ∈ blocks, row.id = block.id → SameKey row block) :
    Written blocks finished row row' where
  key := by
    by_cases hnone : ∀ block ∈ blocks, block.id ≠ row.id
    · rw [h.kept hnone]
      exact SameKey.refl row
    · push Not at hnone
      obtain ⟨block, hblock, hid⟩ := hnone
      obtain hsame | hwritten := h.written block hblock hid
      · rw [hsame]
        exact SameKey.refl row
      · have hkey := hkeys block hblock hid.symm
        exact ⟨hwritten.id, hwritten.poolId, hwritten.blockHeight.trans hkey.blockHeight,
          hwritten.hash.trans hkey.hash, hwritten.created⟩
  kept hnone := by rw [h.kept hnone]
  status block hblock hid :=
    (h.written block hblock hid).imp (congrArg Block.status) WrittenFrom.status
  finished hfinished block hblock hid := (h.finished hfinished block hblock hid).status

section cycles

variable {handler : PayoutHandler} {scheme : PayoutScheme} {pool : PoolConfig}
  {ct : CancellationToken}

/-- Processing blocks writes each row on its own. -/
theorem written_processBlocks (hscheme : SettlesOnly scheme) {blocks : List Block}
    (hids : (blocks.map Block.id).Nodup) (now : Nat) {db : Database}
    (hkeys : ∀ block ∈ blocks, ∀ row ∈ db.blocks, row.id = block.id → SameKey row block) :
    ∃ write : Block → Block,
      (processBlocks handler scheme pool ct now blocks db).1.blocks = db.blocks.map write ∧
        ∀ row ∈ db.blocks, Written blocks
          (∃ n, (processBlocks handler scheme pool ct now blocks db).2 = .ok n) row
          (write row) := by
  obtain ⟨write, hwrite, hupdated⟩ := @updated_processBlocks handler scheme pool ct hscheme _ hids
    now db
  exact ⟨write, hwrite, fun row hrow =>
    (hupdated row).written_of_keys fun block hblock => hkeys block hblock row hrow⟩

end cycles

/-! ## Runs of cycles -/

namespace KaspaPayoutHandler

open Kaspad

/-- A cycle with what the node answers to the classification of each row. -/
structure KaspaCycle where
  ct : CancellationToken
  now : Nat
  node : Block → Node

section runs

variable (handler : PayoutHandler) (scheme : PayoutScheme) (pool : PoolConfig)
  (config : KaspaClassifyConfig)

def updateBalances (cycle : KaspaCycle) (db : Database) : Database × Except Exception Nat :=
  updatePoolBalances handler scheme pool cycle.ct cycle.now
    (classifyBlocks config pool db.blocks cycle.node) db

/-- The database after a run of cycles. -/
def runCycles (cycles : List KaspaCycle) (db : Database) : Database :=
  cycles.foldl (fun db cycle => (updateBalances handler scheme pool config cycle db).1) db

/-- A pending row of the pool. -/
def IsPending (row : Block) : Prop := row.poolId = pool.id ∧ row.status = .pending

/-- A row before and after a cycle. -/
structure Moves (cycle : KaspaCycle) (db : Database) (row row' : Block) : Prop where
  key : SameKey row row'
  status : row'.status = row.status ∨ IsPending pool row ∧
    ∃ verdict, classifyBlock config pool db.blocks (cycle.node row) row = .ok (some verdict) ∧
      row'.status = verdict.status
  finished : (∃ n, (updateBalances handler scheme pool config cycle db).2 = .ok n) →
    IsPending pool row → ∀ verdict,
      classifyBlock config pool db.blocks (cycle.node row) row = .ok (some verdict) →
        row'.status = verdict.status

variable {handler scheme pool config}

theorem verdicts_eq_some_iff {blocks : List Block} {node : Block → Node} {row : Block}
    {verdict : Verdict} : verdicts config pool blocks node row = some verdict ↔
      classifyBlock config pool blocks (node row) row = .ok (some verdict) := by
  rw [verdicts]
  cases classifyBlock config pool blocks (node row) row with
  | error e => simp [Except.toOption]
  | ok verdict? => simp [Except.toOption]

/-- The results of a classification. -/
theorem mem_results_iff {blocks pending results : List Block} {node : Block → Node}
    (h : classifyBlocks config pool blocks node pending = .ok results) {block : Block} :
    block ∈ results ↔ ∃ row ∈ pending, ∃ verdict,
      classifyBlock config pool blocks (node row) row = .ok (some verdict) ∧
        verdict.apply row = block := by
  rw [classifyBlocks_eq_ok config h, Miningcore.classifyBlocks, List.mem_filterMap]
  simp only [Option.map_eq_some_iff, verdicts_eq_some_iff]

/-- Every row moves on its own. -/
theorem moves_updateBalances (hscheme : SettlesOnly scheme) (cycle : KaspaCycle) {db : Database}
    (hids : (db.blocks.map Block.id).Nodup) :
    ∃ write : Block → Block,
      (updateBalances handler scheme pool config cycle db).1.blocks = db.blocks.map write ∧
        ∀ row ∈ db.blocks, Moves handler scheme pool config cycle db row (write row) := by
  cases hclassify : classifyBlocks config pool db.blocks cycle.node
      (getPendingBlocksForPool db.blocks pool.id) with
  | error e =>
      have hupdate : updateBalances handler scheme pool config cycle db = (db, .error e) := by
        rw [updateBalances, updatePoolBalances, hclassify]
      refine ⟨id, ?_, fun row _ => ⟨SameKey.refl row, Or.inl rfl, ?_⟩⟩
      · rw [hupdate]
        exact (List.map_id _).symm
      · rw [hupdate]
        rintro ⟨n, ⟨⟩⟩
  | ok results =>
      have hupdate : updateBalances handler scheme pool config cycle db =
          processBlocks handler scheme pool cycle.ct cycle.now
            (results.insertionSort fun a b => a.created ≤ b.created) db := by
        rw [updateBalances, updatePoolBalances, hclassify]
      have hperm := List.perm_insertionSort (fun a b : Block => a.created ≤ b.created) results
      generalize results.insertionSort (fun a b => a.created ≤ b.created) = sorted at hupdate hperm
      have hnodup : (sorted.map Block.id).Nodup := by
        have hpending : ((getPendingBlocksForPool db.blocks pool.id).map Block.id).Nodup :=
          hids.sublist (List.filter_sublist.map Block.id)
        rw [(hperm.map Block.id).nodup_iff, classifyBlocks_eq_ok config hclassify]
        exact hpending.sublist (map_id_classifyBlocks _ _)
      -- A processed block is what a pending row was classified as.
      have hrow : ∀ block ∈ sorted, ∀ row ∈ db.blocks, row.id = block.id →
          IsPending pool row ∧ ∃ verdict,
            classifyBlock config pool db.blocks (cycle.node row) row = .ok (some verdict) ∧
              verdict.apply row = block := by
        intro block hblock row hmem hid
        obtain ⟨row', hrow', verdict, hverdict, rfl⟩ :=
          (mem_results_iff hclassify).mp (hperm.subset hblock)
        obtain ⟨hmem', hpending⟩ := mem_pending_iff.mp hrow'
        obtain rfl : row = row' := List.inj_on_of_nodup_map hids hmem hmem' hid
        exact ⟨hpending, verdict, hverdict, rfl⟩
      have hkeys : ∀ block ∈ sorted, ∀ row ∈ db.blocks, row.id = block.id → SameKey row block := by
        intro block hblock row hmem hid
        obtain ⟨_, verdict, _, rfl⟩ := hrow block hblock row hmem hid
        exact ⟨rfl, rfl, rfl, rfl, rfl⟩
      obtain ⟨write, hwrite, hwritten⟩ : ∃ write : Block → Block,
          (updateBalances handler scheme pool config cycle db).1.blocks = db.blocks.map write ∧
            ∀ row ∈ db.blocks, Written sorted
              (∃ n, (updateBalances handler scheme pool config cycle db).2 = .ok n) row
              (write row) := by
        rw [hupdate]
        exact written_processBlocks hscheme hnodup cycle.now hkeys
      refine ⟨write, hwrite, fun row hmem => ?_⟩
      have h := hwritten row hmem
      refine ⟨h.key, ?_, ?_⟩
      · by_cases hnone : ∀ block ∈ sorted, block.id ≠ row.id
        · exact Or.inl (h.kept hnone)
        · push Not at hnone
          obtain ⟨block, hblock, hid⟩ := hnone
          obtain ⟨hpending, verdict, hverdict, rfl⟩ := hrow block hblock row hmem hid.symm
          exact (h.status _ hblock hid).imp_right fun hstatus =>
            ⟨hpending, verdict, hverdict, hstatus⟩
      · intro hfinished hpending verdict hverdict
        have hresult := (mem_results_iff hclassify).mpr
          ⟨row, mem_pending_iff.mpr ⟨hmem, hpending⟩, verdict, hverdict, rfl⟩
        exact h.finished hfinished _ (hperm.symm.subset hresult) rfl

end runs

/-! ## Which rows are confirmed -/

section status

variable {pool : PoolConfig} {config : KaspaClassifyConfig} {height : Nat} {hash : String}

/-- The rows of one block. -/
def IsDuplicate (pool : PoolConfig) (height : Nat) (hash : String) (row : Block) : Prop :=
  row.poolId = pool.id ∧ row.blockHeight = height ∧ row.hash = some hash

/-- No row of the block was recorded earlier. -/
def IsEarliest (pool : PoolConfig) (height : Nat) (hash : String) (rows : List Block)
    (row : Block) : Prop :=
  ∀ other ∈ rows, IsDuplicate pool height hash other → row.created ≤ other.created

/-- The node has the block of a row, matured and with a reward. -/
def FindsReward (config : KaspaClassifyConfig) (hash : String) (node : Node) (row : Block)
    (reward : ℚ) : Prop :=
  ∃ response, node.getBlock hash = some response ∧ response.errorMessage = "" ∧
    1 ≤ confirmationProgress config node hash row ∧
      ∃ info, response.block = some info ∧ blockReward config node hash info = .ok reward

/-- The node has the block of a row, matured, and the pool is paid for it. -/
def FindsPaid (config : KaspaClassifyConfig) (hash : String) (node : Node) (row : Block) : Prop :=
  ∃ reward, FindsReward config hash node row reward ∧ 0 < reward

/-- The node answers with an error, or has the block matured and nobody pays the pool. -/
def Disturbs (config : KaspaClassifyConfig) (hash : String) (node : Node) (row : Block) : Prop :=
  (∃ response, node.getBlock hash = some response ∧ response.errorMessage ≠ "") ∨
    ∃ reward, FindsReward config hash node row reward ∧ reward ≤ 0

theorem totalDuplicateBlockBefore_eq_zero_iff {rows : List Block} {row : Block}
    (hrow : IsDuplicate pool height hash row) :
    totalDuplicateBlockBefore pool rows row = 0 ↔ IsEarliest pool height hash rows row := by
  obtain ⟨_, rfl, hhash⟩ := hrow
  rw [totalDuplicateBlockBefore,
    getPoolDuplicateBlockBeforeCountByPoolHeightAndHashNoTypeAndStatus, List.length_eq_zero_iff,
    List.filter_eq_nil_iff, hhash]
  constructor
  · rintro h other hother ⟨hpool, hheight, hother_hash⟩
    have hnot := h other hother
    by_contra hlt
    apply hnot
    rw [decide_eq_true_eq]
    refine ⟨hpool, hheight, rfl, hother_hash, ?_, lt_of_not_ge hlt⟩
    cases other.status <;> simp
  · intro h other hother hcount
    obtain ⟨hpool, hheight, _, hother_hash, _, hlt⟩ := of_decide_eq_true hcount
    exact absurd hlt (not_lt_of_ge (h other hother ⟨hpool, hheight, hother_hash⟩))

/-- What a row of the block is classified as. -/
theorem classifyBlock_eq {rows : List Block} {node : Node} {row : Block}
    (hrow : IsDuplicate pool height hash row) :
    classifyBlock config pool rows node row =
      match node.getBlock hash with
      | none => .ok none
      | some response =>
          if response.errorMessage ≠ "" then .ok (some (orphaned row))
          else if 0 < totalDuplicateBlockBefore pool rows row then .ok (some (orphaned row))
          else (classifyKnown config node hash response row).map some := by
  cases hnode : node.getBlock hash with
  | none => simp only [classifyBlock, hrow.2.2, hnode]
  | some response => simp only [classifyBlock, hrow.2.2, hnode]

/-- A block that the node has stays pending until it has matured, and its reward decides then. -/
theorem status_classifyKnown {node : Node} {response : GetBlockResponse} {row : Block}
    {verdict : Verdict} (hpending : row.status = .pending)
    (hresponse : node.getBlock hash = some response) (herror : response.errorMessage = "")
    (h : classifyKnown config node hash response row = .ok verdict) :
    verdict.status = .pending ∨
      ∃ reward, FindsReward config hash node row reward ∧
        (0 < reward ∧ verdict.status = .confirmed ∧ verdict.reward = reward ∨
          reward ≤ 0 ∧ verdict.status = .orphaned) := by
  simp only [classifyKnown] at h
  split at h
  · cases h
    exact Or.inl hpending
  · rename_i hprogress
    split at h
    · cases h
    · rename_i info hinfo
      split at h
      · cases h
      · rename_i reward hreward
        refine Or.inr ⟨reward, ⟨response, hresponse, herror, not_lt.mp hprogress, info, hinfo,
          hreward⟩, ?_⟩
        split at h
        · rename_i hpos
          cases h
          exact Or.inl ⟨hpos, rfl, rfl⟩
        · rename_i hpos
          cases h
          exact Or.inr ⟨not_lt.mp hpos, rfl⟩

/-- A pending row stays so, is orphaned by an error or an earlier row, or its reward decides. -/
theorem verdict_of_classifyBlock {rows : List Block} {node : Node} {row : Block}
    {verdict : Verdict} (hrow : IsDuplicate pool height hash row) (hpending : row.status = .pending)
    (h : classifyBlock config pool rows node row = .ok (some verdict)) :
    verdict.status = .pending ∨
      (verdict.status = .orphaned ∧
        ((∃ response, node.getBlock hash = some response ∧ response.errorMessage ≠ "") ∨
          0 < totalDuplicateBlockBefore pool rows row)) ∨
      totalDuplicateBlockBefore pool rows row = 0 ∧
        ∃ reward, FindsReward config hash node row reward ∧
          (0 < reward ∧ verdict.status = .confirmed ∧ verdict.reward = reward ∨
            reward ≤ 0 ∧ verdict.status = .orphaned) := by
  rw [classifyBlock_eq hrow] at h
  split at h
  · cases h
  · rename_i response hresponse
    split at h
    · rename_i herror
      cases h
      exact Or.inr (Or.inl ⟨rfl, Or.inl ⟨response, hresponse, herror⟩⟩)
    · rename_i herror
      split at h
      · rename_i hcount
        cases h
        exact Or.inr (Or.inl ⟨rfl, Or.inr hcount⟩)
      · rename_i hcount
        cases hknown : classifyKnown config node hash response row with
        | error e =>
            rw [hknown] at h
            cases h
        | ok known =>
            rw [hknown] at h
            cases h
            obtain hstatus | hreward :=
              status_classifyKnown hpending hresponse (not_not.mp herror) hknown
            · exact Or.inl hstatus
            · exact Or.inr (Or.inr ⟨Nat.eq_zero_of_not_pos hcount, hreward⟩)

/-- A row that is confirmed is an earliest one, and its block is paid. -/
theorem paid_of_confirmed {rows : List Block} {node : Node} {row : Block} {verdict : Verdict}
    (hrow : IsDuplicate pool height hash row) (hpending : row.status = .pending)
    (h : classifyBlock config pool rows node row = .ok (some verdict))
    (hconfirmed : verdict.status = .confirmed) :
    IsEarliest pool height hash rows row ∧
      FindsReward config hash node row verdict.reward ∧ 0 < verdict.reward := by
  obtain hstatus | ⟨hstatus, -⟩ | ⟨hcount, reward, hreward, ⟨hpos, -, rfl⟩ | ⟨-, hstatus⟩⟩ :=
    verdict_of_classifyBlock hrow hpending h
  · rw [hstatus] at hconfirmed
    cases hconfirmed
  · rw [hstatus] at hconfirmed
    cases hconfirmed
  · exact ⟨(totalDuplicateBlockBefore_eq_zero_iff hrow).mp hcount, hreward, hpos⟩
  · rw [hstatus] at hconfirmed
    cases hconfirmed

/-- An earliest row is orphaned by answers that disturb it only. -/
theorem disturbs_of_orphaned {rows : List Block} {node : Node} {row : Block} {verdict : Verdict}
    (hrow : IsDuplicate pool height hash row) (hpending : row.status = .pending)
    (hearliest : IsEarliest pool height hash rows row)
    (h : classifyBlock config pool rows node row = .ok (some verdict))
    (horphaned : verdict.status = .orphaned) : Disturbs config hash node row := by
  have hnone := (totalDuplicateBlockBefore_eq_zero_iff hrow).mpr hearliest
  obtain hstatus | ⟨-, herror | hcount⟩ | ⟨-, reward, hreward, ⟨-, hstatus, -⟩ | ⟨hle, -⟩⟩ :=
    verdict_of_classifyBlock hrow hpending h
  · rw [hstatus] at horphaned
    cases horphaned
  · exact Or.inl herror
  · exact absurd hnone hcount.ne'
  · rw [hstatus] at horphaned
    cases horphaned
  · exact Or.inr ⟨reward, hreward, hle⟩

/-- An earliest row is confirmed when its block is found paid. -/
theorem confirmed_of_paid {rows : List Block} {node : Node} {row : Block}
    (hrow : IsDuplicate pool height hash row) (hearliest : IsEarliest pool height hash rows row)
    (h : FindsPaid config hash node row) :
    ∃ verdict, classifyBlock config pool rows node row = .ok (some verdict) ∧
      verdict.status = .confirmed := by
  obtain ⟨reward, ⟨response, hresponse, herror, hprogress, info, hinfo, hreward⟩, hpos⟩ := h
  have hcount := (totalDuplicateBlockBefore_eq_zero_iff hrow).mpr hearliest
  have hknown : classifyKnown config node hash response row =
      .ok { status := .confirmed, confirmationProgress := 1, reward } := by
    simp only [classifyKnown, hinfo, hreward]
    rw [if_neg (not_lt.mpr hprogress), if_pos hpos]
  refine ⟨{ status := .confirmed, confirmationProgress := 1, reward }, ?_, rfl⟩
  rw [classifyBlock_eq hrow, hresponse]
  dsimp only
  rw [if_neg (not_not.mpr herror), hcount, if_neg (Nat.lt_irrefl 0), hknown]
  rfl

end status

/-! ## Which rows a run confirms -/

section runs

variable {handler : PayoutHandler} {scheme : PayoutScheme} {pool : PoolConfig}
  {config : KaspaClassifyConfig} {height : Nat} {hash : String}

/-- A cycle of the run finds the block of a pending row paid. -/
def FoundPaid (handler : PayoutHandler) (scheme : PayoutScheme) (pool : PoolConfig)
    (config : KaspaClassifyConfig) (hash : String) (cycles : List KaspaCycle) (db : Database)
    (id : Nat) : Prop :=
  ∃ pre cycle post, cycles = pre ++ cycle :: post ∧
    ∃ row ∈ (runCycles handler scheme pool config pre db).blocks, row.id = id ∧
      row.status = .pending ∧ FindsPaid config hash (cycle.node row) row

/-- No cycle of the run disturbs the row while it is pending. -/
def Undisturbed (handler : PayoutHandler) (scheme : PayoutScheme) (pool : PoolConfig)
    (config : KaspaClassifyConfig) (hash : String) (cycles : List KaspaCycle) (db : Database)
    (id : Nat) : Prop :=
  ∀ pre cycle post, cycles = pre ++ cycle :: post →
    ∀ row ∈ (runCycles handler scheme pool config pre db).blocks, row.id = id →
      row.status = .pending → ¬ Disturbs config hash (cycle.node row) row

/-- A row of the block before and after a run. -/
structure Lives (handler : PayoutHandler) (scheme : PayoutScheme) (pool : PoolConfig)
    (config : KaspaClassifyConfig) (height : Nat) (hash : String) (cycles : List KaspaCycle)
    (db : Database) (row row' : Block) : Prop where
  key : SameKey row row'
  confirmed : IsDuplicate pool height hash row → row.status = .pending →
    row'.status = .confirmed → IsEarliest pool height hash db.blocks row ∧
      FoundPaid handler scheme pool config hash cycles db row.id
  orphaned : IsDuplicate pool height hash row → row.status = .pending →
    IsEarliest pool height hash db.blocks row →
    Undisturbed handler scheme pool config hash cycles db row.id → row'.status ≠ .orphaned

theorem runCycles_append (cycles cycles' : List KaspaCycle) (db : Database) :
    runCycles handler scheme pool config (cycles ++ cycles') db =
      runCycles handler scheme pool config cycles'
        (runCycles handler scheme pool config cycles db) := List.foldl_append

theorem runCycles_concat (cycles : List KaspaCycle) (cycle : KaspaCycle) (db : Database) :
    runCycles handler scheme pool config (cycles ++ [cycle]) db =
      (updateBalances handler scheme pool config cycle
        (runCycles handler scheme pool config cycles db)).1 := runCycles_append cycles [cycle] db

theorem FoundPaid.append {cycles : List KaspaCycle} {db : Database} {id : Nat}
    (h : FoundPaid handler scheme pool config hash cycles db id) (cycles' : List KaspaCycle) :
    FoundPaid handler scheme pool config hash (cycles ++ cycles') db id := by
  obtain ⟨pre, cycle, post, rfl, hrow⟩ := h
  exact ⟨pre, cycle, post ++ cycles', by simp, hrow⟩

theorem Undisturbed.of_append {cycles cycles' : List KaspaCycle} {db : Database} {id : Nat}
    (h : Undisturbed handler scheme pool config hash (cycles ++ cycles') db id) :
    Undisturbed handler scheme pool config hash cycles db id := by
  rintro pre cycle post rfl
  exact h pre cycle (post ++ cycles') (by simp)

theorem IsDuplicate.of_sameKey {row row' : Block} (hkey : SameKey row row')
    (h : IsDuplicate pool height hash row) : IsDuplicate pool height hash row' :=
  ⟨hkey.poolId.trans h.1, hkey.blockHeight.trans h.2.1, hkey.hash.trans h.2.2⟩

/-- The rows of the block keep their order. -/
theorem isEarliest_map_iff {rows : List Block} {write : Block → Block}
    (hkey : ∀ row ∈ rows, SameKey row (write row)) {row : Block} (hrow : row ∈ rows) :
    IsEarliest pool height hash (rows.map write) (write row) ↔
      IsEarliest pool height hash rows row := by
  constructor
  · intro h other hother hduplicate
    have hle := h (write other) (List.mem_map_of_mem hother)
      (hduplicate.of_sameKey (hkey other hother))
    rwa [(hkey row hrow).created, (hkey other hother).created] at hle
  · intro h other' hother' hduplicate
    obtain ⟨other, hother, rfl⟩ := List.mem_map.mp hother'
    rw [(hkey row hrow).created, (hkey other hother).created]
    exact h other hother (hduplicate.of_sameKey (hkey other hother).symm)

/-- One more cycle. -/
theorem Lives.concat {cycles : List KaspaCycle} {cycle : KaspaCycle} {db db' : Database}
    {row middle row' : Block}
    (hdb : db' = runCycles handler scheme pool config cycles db) (hmiddle : middle ∈ db'.blocks)
    (hearliest : IsEarliest pool height hash db'.blocks middle ↔
      IsEarliest pool height hash db.blocks row)
    (h : Lives handler scheme pool config height hash cycles db row middle)
    (hmoves : Moves handler scheme pool config cycle db' middle row') :
    Lives handler scheme pool config height hash (cycles ++ [cycle]) db row row' := by
  refine ⟨h.key.trans hmoves.key, ?_, ?_⟩
  · intro hduplicate hpending hconfirmed
    obtain hstatus | ⟨hmiddle_pending, verdict, hverdict, hstatus⟩ := hmoves.status
    · obtain ⟨hrow, hpaid⟩ := h.confirmed hduplicate hpending (hstatus ▸ hconfirmed)
      exact ⟨hrow, hpaid.append [cycle]⟩
    · obtain ⟨hrow, hreward⟩ := paid_of_confirmed (hduplicate.of_sameKey h.key) hmiddle_pending.2
        hverdict (hstatus ▸ hconfirmed)
      refine ⟨hearliest.mp hrow, cycles, cycle, [], rfl, middle, ?_, h.key.id,
        hmiddle_pending.2, verdict.reward, hreward⟩
      rw [← hdb]
      exact hmiddle
  · intro hduplicate hpending hrow hundisturbed horphaned
    obtain hstatus | ⟨hmiddle_pending, verdict, hverdict, hstatus⟩ := hmoves.status
    · exact h.orphaned hduplicate hpending hrow hundisturbed.of_append (hstatus ▸ horphaned)
    · refine hundisturbed cycles cycle [] rfl middle ?_ h.key.id hmiddle_pending.2
        (disturbs_of_orphaned (hduplicate.of_sameKey h.key) hmiddle_pending.2
          (hearliest.mpr hrow) hverdict (hstatus ▸ horphaned))
      rw [← hdb]
      exact hmiddle

theorem nodup_id_runCycles (hscheme : SettlesOnly scheme) (cycles : List KaspaCycle)
    {db : Database} (hids : (db.blocks.map Block.id).Nodup) :
    ((runCycles handler scheme pool config cycles db).blocks.map Block.id).Nodup := by
  induction cycles generalizing db with
  | nil => exact hids
  | cons cycle cycles ih =>
      obtain ⟨write, hwrite, hmoves⟩ : ∃ write : Block → Block,
          (updateBalances handler scheme pool config cycle db).1.blocks = db.blocks.map write ∧
            ∀ row ∈ db.blocks, Moves handler scheme pool config cycle db row (write row) :=
        moves_updateBalances hscheme cycle hids
      apply ih
      have hsame : db.blocks.map (Block.id ∘ write) = db.blocks.map Block.id :=
        List.map_congr_left fun row hrow => (hmoves row hrow).key.id
      rw [hwrite, List.map_map, hsame]
      exact hids

theorem lives_runCycles (hscheme : SettlesOnly scheme) (cycles : List KaspaCycle) {db : Database}
    (hids : (db.blocks.map Block.id).Nodup) :
    ∃ write : Block → Block,
      (runCycles handler scheme pool config cycles db).blocks = db.blocks.map write ∧
        ∀ row ∈ db.blocks,
          Lives handler scheme pool config height hash cycles db row (write row) := by
  induction cycles using List.reverseRecOn with
  | nil =>
      refine ⟨id, (List.map_id _).symm, fun row _ => ⟨SameKey.refl row, ?_, ?_⟩⟩
      · intro _ hpending hconfirmed
        rw [id, hpending] at hconfirmed
        cases hconfirmed
      · intro _ hpending _ _ horphaned
        rw [id, hpending] at horphaned
        cases horphaned
  | append_singleton cycles cycle ih =>
      obtain ⟨write, hwrite, hlives⟩ := ih
      obtain ⟨write', hwrite', hmoves⟩ : ∃ write' : Block → Block,
          (updateBalances handler scheme pool config cycle
              (runCycles handler scheme pool config cycles db)).1.blocks =
            (runCycles handler scheme pool config cycles db).blocks.map write' ∧
          ∀ row ∈ (runCycles handler scheme pool config cycles db).blocks,
            Moves handler scheme pool config cycle
              (runCycles handler scheme pool config cycles db) row (write' row) :=
        moves_updateBalances hscheme cycle (nodup_id_runCycles hscheme cycles hids)
      refine ⟨write' ∘ write, ?_, fun row hrow => ?_⟩
      · rw [runCycles_concat, hwrite', hwrite, List.map_map]
      · have hmiddle : write row ∈ (runCycles handler scheme pool config cycles db).blocks := by
          rw [hwrite]
          exact List.mem_map_of_mem hrow
        apply (hlives row hrow).concat rfl hmiddle _ (hmoves _ hmiddle)
        rw [hwrite]
        exact isEarliest_map_iff (fun other hother => (hlives other hother).key) hrow

/-- A confirmed row stays confirmed. -/
theorem confirmed_runCycles (hscheme : SettlesOnly scheme) (cycles : List KaspaCycle)
    {db : Database} (hids : (db.blocks.map Block.id).Nodup) {row : Block} (hrow : row ∈ db.blocks)
    (hconfirmed : row.status = .confirmed) :
    ∃ row' ∈ (runCycles handler scheme pool config cycles db).blocks, SameKey row row' ∧
      row'.status = .confirmed := by
  induction cycles generalizing db row with
  | nil => exact ⟨row, hrow, SameKey.refl row, hconfirmed⟩
  | cons cycle cycles ih =>
      obtain ⟨write, hwrite, hmoves⟩ : ∃ write : Block → Block,
          (updateBalances handler scheme pool config cycle db).1.blocks = db.blocks.map write ∧
            ∀ row ∈ db.blocks, Moves handler scheme pool config cycle db row (write row) :=
        moves_updateBalances hscheme cycle hids
      have hmem : write row ∈ (updateBalances handler scheme pool config cycle db).1.blocks := by
        rw [hwrite]
        exact List.mem_map_of_mem hrow
      have hstatus : (write row).status = .confirmed := by
        obtain hstatus | ⟨⟨_, hpending⟩, _⟩ := (hmoves row hrow).status
        · exact hstatus.trans hconfirmed
        · rw [hconfirmed] at hpending
          cases hpending
      obtain ⟨row', hrow', hkey, hconfirmed'⟩ :=
        ih (nodup_id_runCycles hscheme [cycle] hids) hmem hstatus
      exact ⟨row', hrow', (hmoves row hrow).key.trans hkey, hconfirmed'⟩

/-- A cycle that ends and finds the block paid for an undisturbed earliest row leaves the row
confirmed. -/
theorem confirmed_concat (hscheme : SettlesOnly scheme) (pre : List KaspaCycle)
    (cycle : KaspaCycle) {db : Database} (hids : (db.blocks.map Block.id).Nodup) {row : Block}
    (hrow : row ∈ db.blocks) (hduplicate : IsDuplicate pool height hash row)
    (hpending : row.status = .pending) (hearliest : IsEarliest pool height hash db.blocks row)
    (hundisturbed : Undisturbed handler scheme pool config hash pre db row.id)
    (hpaid : ∀ row' ∈ (runCycles handler scheme pool config pre db).blocks, row'.id = row.id →
      row'.status = .pending → FindsPaid config hash (cycle.node row') row')
    (hfinished : ∃ n, (updateBalances handler scheme pool config cycle
      (runCycles handler scheme pool config pre db)).2 = .ok n) :
    ∃ row' ∈ (runCycles handler scheme pool config (pre ++ [cycle]) db).blocks,
      SameKey row row' ∧ row'.status = .confirmed := by
  obtain ⟨write, hwrite, hlives⟩ : ∃ write : Block → Block,
      (runCycles handler scheme pool config pre db).blocks = db.blocks.map write ∧
        ∀ row ∈ db.blocks,
          Lives handler scheme pool config height hash pre db row (write row) :=
    lives_runCycles hscheme pre hids
  have hids' : ((runCycles handler scheme pool config pre db).blocks.map Block.id).Nodup :=
    nodup_id_runCycles hscheme pre hids
  obtain ⟨write', hwrite', hmoves⟩ : ∃ write' : Block → Block,
      (updateBalances handler scheme pool config cycle
          (runCycles handler scheme pool config pre db)).1.blocks =
        (runCycles handler scheme pool config pre db).blocks.map write' ∧
      ∀ row ∈ (runCycles handler scheme pool config pre db).blocks,
        Moves handler scheme pool config cycle
          (runCycles handler scheme pool config pre db) row (write' row) :=
    moves_updateBalances hscheme cycle hids'
  have hlife := hlives row hrow
  have hmiddle : write row ∈ (runCycles handler scheme pool config pre db).blocks := by
    rw [hwrite]
    exact List.mem_map_of_mem hrow
  have hmove := hmoves _ hmiddle
  have hduplicate' := hduplicate.of_sameKey hlife.key
  refine ⟨write' (write row), ?_, hlife.key.trans hmove.key, ?_⟩
  · rw [runCycles_concat, hwrite']
    exact List.mem_map_of_mem hmiddle
  -- The cycle finds the row pending and confirms it, or finds it confirmed.
  · cases hstatus : (write row).status with
    | orphaned =>
        exact absurd hstatus (hlife.orphaned hduplicate hpending hearliest hundisturbed)
    | confirmed =>
        obtain hsame | ⟨⟨_, hmiddle_pending⟩, _⟩ := hmove.status
        · exact hsame.trans hstatus
        · rw [hstatus] at hmiddle_pending
          cases hmiddle_pending
    | pending =>
        have hearliest' : IsEarliest pool height hash
            (runCycles handler scheme pool config pre db).blocks (write row) := by
          rw [hwrite]
          apply (isEarliest_map_iff (fun other hother => (hlives other hother).key) hrow).mpr
          exact hearliest
        obtain ⟨verdict, hverdict, hverdict_status⟩ := confirmed_of_paid hduplicate' hearliest'
          (hpaid _ hmiddle hlife.key.id hstatus)
        rw [hmove.finished hfinished ⟨hduplicate'.1, hstatus⟩ verdict hverdict]
        exact hverdict_status

/-- At most one row of a block is confirmed in any state of a run, unless cycles find the block paid
for two rows with the earliest creation time. A cycle that ends and finds the block paid for an
earliest row leaves the row confirmed, unless an earlier cycle disturbed it. -/
theorem one_duplicate_confirmed (hscheme : SettlesOnly scheme) (cycles : List KaspaCycle)
    {db : Database} (hids : (db.blocks.map Block.id).Nodup)
    (hpending : ∀ row ∈ db.blocks, IsDuplicate pool height hash row → row.status = .pending)
    (hties : ∀ row ∈ db.blocks, ∀ row' ∈ db.blocks, IsDuplicate pool height hash row →
      IsDuplicate pool height hash row' → IsEarliest pool height hash db.blocks row →
      IsEarliest pool height hash db.blocks row' →
      FoundPaid handler scheme pool config hash cycles db row.id →
      FoundPaid handler scheme pool config hash cycles db row'.id → row.id = row'.id) :
    (∀ pre post, cycles = pre ++ post →
      ∀ row ∈ (runCycles handler scheme pool config pre db).blocks,
        ∀ row' ∈ (runCycles handler scheme pool config pre db).blocks,
          IsDuplicate pool height hash row → IsDuplicate pool height hash row' →
            row.status = .confirmed → row'.status = .confirmed → row.id = row'.id) ∧
      ∀ pre cycle post, cycles = pre ++ cycle :: post →
        ∀ row ∈ db.blocks, IsDuplicate pool height hash row →
          IsEarliest pool height hash db.blocks row →
          Undisturbed handler scheme pool config hash pre db row.id →
          (∀ row' ∈ (runCycles handler scheme pool config pre db).blocks, row'.id = row.id →
            row'.status = .pending → FindsPaid config hash (cycle.node row') row') →
          (∃ n, (updateBalances handler scheme pool config cycle
            (runCycles handler scheme pool config pre db)).2 = .ok n) →
          ∃ row' ∈ (runCycles handler scheme pool config cycles db).blocks,
            row'.id = row.id ∧ IsDuplicate pool height hash row' ∧ row'.status = .confirmed := by
  constructor
  · rintro pre post rfl row hrow row' hrow' hduplicate hduplicate' hconfirmed hconfirmed'
    obtain ⟨write, hwrite, hlives⟩ : ∃ write : Block → Block,
        (runCycles handler scheme pool config pre db).blocks = db.blocks.map write ∧
          ∀ row ∈ db.blocks,
            Lives handler scheme pool config height hash pre db row (write row) :=
      lives_runCycles hscheme pre hids
    rw [hwrite] at hrow hrow'
    obtain ⟨first, hfirst, rfl⟩ := List.mem_map.mp hrow
    obtain ⟨second, hsecond, rfl⟩ := List.mem_map.mp hrow'
    have hkey := (hlives first hfirst).key
    have hkey' := (hlives second hsecond).key
    have hd := hduplicate.of_sameKey hkey.symm
    have hd' := hduplicate'.of_sameKey hkey'.symm
    obtain ⟨hearliest, hpaid⟩ :=
      (hlives first hfirst).confirmed hd (hpending first hfirst hd) hconfirmed
    obtain ⟨hearliest', hpaid'⟩ :=
      (hlives second hsecond).confirmed hd' (hpending second hsecond hd') hconfirmed'
    rw [hkey.id, hkey'.id]
    exact hties first hfirst second hsecond hd hd' hearliest hearliest' (hpaid.append post)
      (hpaid'.append post)
  · rintro pre cycle post rfl row hrow hduplicate hearliest hundisturbed hpaid hfinished
    obtain ⟨middle, hmiddle, hkey, hconfirmed⟩ := confirmed_concat hscheme pre cycle hids hrow
      hduplicate (hpending row hrow hduplicate) hearliest hundisturbed hpaid hfinished
    have hids' : ((runCycles handler scheme pool config (pre ++ [cycle]) db).blocks.map
        Block.id).Nodup := nodup_id_runCycles hscheme _ hids
    obtain ⟨row', hrow', hkey', hconfirmed'⟩ : ∃ row' ∈ (runCycles handler scheme pool config post
        (runCycles handler scheme pool config (pre ++ [cycle]) db)).blocks,
          SameKey middle row' ∧ row'.status = .confirmed :=
      confirmed_runCycles hscheme post hids' hmiddle hconfirmed
    rw [← runCycles_append, List.append_assoc] at hrow'
    have hall := hkey.trans hkey'
    exact ⟨row', hrow', hall.id, hduplicate.of_sameKey hall, hconfirmed'⟩

end runs

/-! ### Two rows of a block -/

def twoRowsPool : PoolConfig where
  id := "kas"
  address := "pool"

def twoRowsConfig : KaspaClassifyConfig where
  address := "pool"
  minConfirmations := 120

def recordedRow (id created : Nat) : Block where
  id
  poolId := "kas"
  blockHeight := 5
  miner := "miner"
  reward := 0
  hash := some "hash"
  created

/-- A node that has the block on the chain, matured, and its coinbase pays the pool. -/
def payingNode : Node where
  getBlock _ := some
    { block := some { transactions := [⟨0, [⟨100000000, "pool"⟩]⟩], isChainBlock := true } }
  getBlocks _ := some 200

def failingNode : Node where
  getBlock _ := some { errorMessage := "timeout" }
  getBlocks _ := none

def payingCycle : KaspaCycle := ⟨.none, 0, fun _ => payingNode⟩

def failingCycle : KaspaCycle := ⟨.none, 0, fun _ => failingNode⟩

def statusesAfter (cycles : List KaspaCycle) (blocks : List Block) : List BlockStatus :=
  (runCycles .base PPLNSPaymentScheme.updateBalances twoRowsPool twoRowsConfig cycles
    { blocks }).blocks.map Block.status

/-- Two rows of one time are both confirmed, and none is when the node fails on the earlier row. -/
theorem statusesAfter_duplicates :
    statusesAfter [payingCycle] [recordedRow 1 7, recordedRow 2 7] = [.confirmed, .confirmed] ∧
      statusesAfter [failingCycle, payingCycle] [recordedRow 1 7, recordedRow 2 8] =
        [.orphaned, .orphaned] := by
  decide +kernel

/-- A later row of the block. -/
def twoRows : Database where
  blocks := [recordedRow 1 7, recordedRow 2 8]

theorem findsPaid_payingNode (row : Block) : FindsPaid twoRowsConfig "hash" payingNode row := by
  refine ⟨1, ⟨_, rfl, rfl, ?_, _, rfl, ?_⟩, zero_lt_one⟩
  · change (1 : ℚ) ≤ min 1 (200 / 120)
    norm_num
  · decide +kernel

theorem one_of_twoRows_confirmed :
    let rows := (runCycles .base PPLNSPaymentScheme.updateBalances twoRowsPool twoRowsConfig
      [payingCycle] twoRows).blocks
    (∃ row ∈ rows, row.id = 1 ∧ row.status = .confirmed) ∧
      ∀ row ∈ rows, ∀ row' ∈ rows, IsDuplicate twoRowsPool 5 "hash" row →
        IsDuplicate twoRowsPool 5 "hash" row' → row.status = .confirmed →
          row'.status = .confirmed → row.id = row'.id := by
  have hrows : ∀ row ∈ twoRows.blocks, row = recordedRow 1 7 ∨ row = recordedRow 2 8 := by
    intro row hrow
    simpa [twoRows] using hrow
  have hfirst : ∀ row ∈ twoRows.blocks,
      IsEarliest twoRowsPool 5 "hash" twoRows.blocks row → row.id = 1 := by
    intro row hrow hearliest
    obtain rfl | rfl := hrows row hrow
    · rfl
    · have hle := hearliest (recordedRow 1 7) List.mem_cons_self ⟨rfl, rfl, rfl⟩
      exact absurd hle (by decide)
  have hearliest : IsEarliest twoRowsPool 5 "hash" twoRows.blocks (recordedRow 1 7) := by
    intro other hother _
    obtain rfl | rfl := hrows other hother <;> decide
  have hfinished : ∃ n, (updateBalances .base PPLNSPaymentScheme.updateBalances twoRowsPool
      twoRowsConfig payingCycle twoRows).2 = .ok n := by
    have hok : (updateBalances .base PPLNSPaymentScheme.updateBalances twoRowsPool
        twoRowsConfig payingCycle twoRows).2.isOk = true := by decide +kernel
    cases hresult : (updateBalances .base PPLNSPaymentScheme.updateBalances twoRowsPool
        twoRowsConfig payingCycle twoRows).2 with
    | ok n => exact ⟨n, rfl⟩
    | error e =>
        rw [hresult] at hok
        cases hok
  have hpending : ∀ row ∈ twoRows.blocks, IsDuplicate twoRowsPool 5 "hash" row →
      row.status = .pending := by
    intro row hrow _
    obtain rfl | rfl := hrows row hrow <;> rfl
  obtain ⟨hone, hpaid⟩ := @one_duplicate_confirmed .base PPLNSPaymentScheme.updateBalances
    twoRowsPool twoRowsConfig 5 "hash" settlesOnly_PPLNS [payingCycle] twoRows (by decide) hpending
    fun row hrow row' hrow' _ _ hearliest hearliest' _ _ =>
      (hfirst row hrow hearliest).trans (hfirst row' hrow' hearliest').symm
  obtain ⟨row, hrow, hid, _, hconfirmed⟩ := hpaid [] payingCycle [] rfl (recordedRow 1 7)
    List.mem_cons_self ⟨rfl, rfl, rfl⟩ hearliest (by rintro pre cycle post hnil; simp at hnil)
    (fun row' _ _ _ => findsPaid_payingNode row') hfinished
  exact ⟨⟨row, hrow, hid, hconfirmed⟩, hone [payingCycle] [] rfl⟩

end KaspaPayoutHandler

end Miningcore
