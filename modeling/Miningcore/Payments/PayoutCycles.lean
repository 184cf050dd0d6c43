import Miningcore.Payments.PayoutManager

/-!
# Runs of payout cycles

A handler classifies each pending block on its own: it leaves the block alone, or
sets its status, progress and reward. A cycle is given by these verdicts, a run
by a list of cycles. The log of a run holds the committed transactions in order.
-/

namespace Miningcore

open BlockRepository PayoutManager

/-- What a classification sets of a block. -/
structure Verdict where
  status : BlockStatus
  confirmationProgress : ℚ
  reward : ℚ
deriving DecidableEq

def Verdict.apply (verdict : Verdict) (block : Block) : Block :=
  { block with
    status := verdict.status
    confirmationProgress := verdict.confirmationProgress
    reward := verdict.reward }

/-- A classification block by block; blocks without a verdict are not returned. -/
def classifyBlocks (verdicts : Block → Option Verdict) (blocks : List Block) : List Block :=
  blocks.filterMap fun block => (verdicts block).map fun verdict => verdict.apply block

/-- A cycle starts at some tick and finds some verdicts. -/
structure Cycle where
  now : Nat
  verdicts : Block → Option Verdict

/-- A committed transaction of a block. -/
structure Commit where
  before : Database
  block : Block
  after : Database

section Runs

variable (handler : PayoutHandler) (scheme : PayoutScheme) (pool : PoolConfig)

/-- The committed transactions of the loop over classified blocks. -/
def blockCommits : Nat → List Block → Database → List Commit
  | _, [], _ => []
  | now, block :: rest, db =>
      match processBlock handler scheme pool .none now block db with
      | .error _ => []
      | .ok (db', now') => ⟨db, block, db'⟩ :: blockCommits now' rest db'

/-- The database after a list of committed transactions. -/
def finalDatabase : Database → List Commit → Database
  | db, [] => db
  | _, commit :: rest => finalDatabase commit.after rest

/-- The blocks a cycle processes, in order. -/
def cycleBlocks (pool : PoolConfig) (cycle : Cycle) (db : Database) : List Block :=
  (classifyBlocks cycle.verdicts (getPendingBlocksForPool db.blocks pool.id)).insertionSort
    fun a b => a.created ≤ b.created

def cycleCommits (cycle : Cycle) (db : Database) : List Commit :=
  blockCommits handler scheme pool cycle.now (cycleBlocks pool cycle db) db

/-- The committed transactions of a run of cycles. -/
def runCommits : List Cycle → Database → List Commit
  | [], _ => []
  | cycle :: rest, db =>
      let log := cycleCommits handler scheme pool cycle db
      log ++ runCommits rest (finalDatabase db log)

/-- The database after a run of cycles. -/
def databaseAfter : List Cycle → Database → Database
  | [], db => db
  | cycle :: rest, db => databaseAfter rest
      (updatePoolBalances handler scheme pool .none cycle.now
        (fun blocks => .ok (classifyBlocks cycle.verdicts blocks)) db).1

theorem processBlocks_fst (now : Nat) (blocks : List Block) (db : Database) :
    (processBlocks handler scheme pool .none now blocks db).1 =
      finalDatabase db (blockCommits handler scheme pool now blocks db) := by
  induction blocks generalizing now db with
  | nil => rfl
  | cons block rest ih =>
      rw [processBlocks, runTx, blockCommits]
      cases processBlock handler scheme pool .none now block db with
      | error e => rfl
      | ok result => exact ih result.2 result.1

theorem finalDatabase_append (db : Database) (log log' : List Commit) :
    finalDatabase db (log ++ log') = finalDatabase (finalDatabase db log) log' := by
  induction log generalizing db with
  | nil => rfl
  | cons commit log ih => exact ih commit.after

/-- The log of a run leads to the database the cycles leave. -/
theorem databaseAfter_eq (cycles : List Cycle) (db : Database) :
    databaseAfter handler scheme pool cycles db =
      finalDatabase db (runCommits handler scheme pool cycles db) := by
  induction cycles generalizing db with
  | nil => rfl
  | cons cycle rest ih =>
      have hcycle : (updatePoolBalances handler scheme pool .none cycle.now
          (fun blocks => .ok (classifyBlocks cycle.verdicts blocks)) db).1 =
            finalDatabase db (cycleCommits handler scheme pool cycle db) :=
        processBlocks_fst handler scheme pool _ _ _
      rw [databaseAfter, hcycle, ih, runCommits, finalDatabase_append]

/-- A sequence of transactions, each of a block that is pending when it is committed. -/
inductive Run : Database → List Commit → Prop
  | nil (db : Database) : Run db []
  | cons {db : Database} {block : Block} {db' : Database} {log : List Commit}
      (pending : ∃ row ∈ getPendingBlocksForPool db.blocks pool.id,
        row.id = block.id ∧ row.created = block.created)
      (commit : ∃ now n, processBlock handler scheme pool .none now block db = .ok (db', n))
      (rest : Run db' log) : Run db (⟨db, block, db'⟩ :: log)

variable {handler scheme pool}

theorem Run.append {db : Database} {log₁ log₂ : List Commit} (h₁ : Run handler scheme pool db log₁)
    (h₂ : Run handler scheme pool (finalDatabase db log₁) log₂) :
    Run handler scheme pool db (log₁ ++ log₂) := by
  induction h₁ with
  | nil db => exact h₂
  | cons pending commit _ ih => exact .cons pending commit (ih h₂)

/-! ## Runs of cycles are runs -/

theorem map_id_updateBlock (blocks : List Block) (block : Block) :
    (updateBlock blocks block).map Block.id = blocks.map Block.id := by
  rw [updateBlock, List.map_map]
  apply List.map_congr_left
  intro row _
  simp only [Function.comp_apply]
  split <;> rfl

/-- A row with another id is left as it is. -/
theorem mem_updateBlock_of_ne {blocks : List Block} {block row : Block} (hrow : row ∈ blocks)
    (hne : row.id ≠ block.id) : row ∈ updateBlock blocks block :=
  List.mem_map.mpr ⟨row, hrow, if_neg hne⟩

theorem mem_pending_updateBlock_of_ne {blocks : List Block} {poolId : String} {block row : Block}
    (hrow : row ∈ getPendingBlocksForPool blocks poolId) (hne : row.id ≠ block.id) :
    row ∈ getPendingBlocksForPool (updateBlock blocks block) poolId := by
  obtain ⟨hmem, hpending⟩ := List.mem_filter.mp hrow
  exact List.mem_filter.mpr ⟨mem_updateBlock_of_ne hmem hne, hpending⟩

/-- Blocks that are pending, each with its own id, commit one after the other. -/
theorem run_blockCommits (hscheme : SettlesOnly scheme) {blocks : List Block}
    (hids : (blocks.map Block.id).Nodup) (now : Nat) {db : Database}
    (hpending : ∀ block ∈ blocks, ∃ row ∈ getPendingBlocksForPool db.blocks pool.id,
      row.id = block.id ∧ row.created = block.created) :
    Run handler scheme pool db (blockCommits handler scheme pool now blocks db) := by
  induction blocks generalizing now db with
  | nil => exact .nil db
  | cons block rest ih =>
      rw [blockCommits]
      cases hblock : processBlock handler scheme pool .none now block db with
      | error e => exact .nil db
      | ok result =>
          rw [List.map_cons, List.nodup_cons] at hids
          refine .cons (hpending block List.mem_cons_self) ⟨now, result.2, hblock⟩
            (ih hids.2 result.2 fun other hother => ?_)
          obtain ⟨row, hrow, hid, hcreated⟩ := hpending other (List.mem_cons_of_mem _ hother)
          have hne : row.id ≠ block.id := by
            intro heq
            apply hids.1
            rw [← heq, hid]
            exact List.mem_map_of_mem hother
          refine ⟨row, ?_, hid, hcreated⟩
          rw [blocks_processBlock hscheme hblock]
          exact mem_pending_updateBlock_of_ne hrow hne

theorem perm_cycleBlocks (pool : PoolConfig) (cycle : Cycle) (db : Database) :
    (cycleBlocks pool cycle db).Perm
      (classifyBlocks cycle.verdicts (getPendingBlocksForPool db.blocks pool.id)) :=
  List.perm_insertionSort _ _

theorem mem_cycleBlocks {cycle : Cycle} {db : Database} {block : Block}
    (h : block ∈ cycleBlocks pool cycle db) :
    ∃ row ∈ getPendingBlocksForPool db.blocks pool.id,
      row.id = block.id ∧ row.created = block.created := by
  obtain ⟨row, hrow, hverdict⟩ := List.mem_filterMap.mp ((perm_cycleBlocks pool cycle db).subset h)
  obtain ⟨verdict, _, rfl⟩ := Option.map_eq_some_iff.mp hverdict
  exact ⟨row, hrow, rfl, rfl⟩

theorem map_id_classifyBlocks (verdicts : Block → Option Verdict) (blocks : List Block) :
    ((classifyBlocks verdicts blocks).map Block.id).Sublist (blocks.map Block.id) := by
  induction blocks with
  | nil => simp [classifyBlocks]
  | cons block blocks ih =>
      rw [classifyBlocks] at ih ⊢
      cases hv : verdicts block with
      | none => simpa [hv] using ih.cons block.id
      | some verdict => simpa [hv, Verdict.apply] using ih.cons_cons block.id

theorem nodup_id_cycleBlocks (cycle : Cycle) {db : Database}
    (hids : (db.blocks.map Block.id).Nodup) :
    ((cycleBlocks pool cycle db).map Block.id).Nodup := by
  have hpending : ((getPendingBlocksForPool db.blocks pool.id).map Block.id).Nodup :=
    hids.sublist (List.filter_sublist.map Block.id)
  rw [((perm_cycleBlocks pool cycle db).map Block.id).nodup_iff]
  exact hpending.sublist (map_id_classifyBlocks _ _)

theorem map_id_finalDatabase (hscheme : SettlesOnly scheme) {db : Database} {log : List Commit}
    (h : Run handler scheme pool db log) :
    (finalDatabase db log).blocks.map Block.id = db.blocks.map Block.id := by
  induction h with
  | nil db => rfl
  | cons _ commit _ ih =>
      obtain ⟨now, n, hblock⟩ := commit
      exact ih.trans ((congrArg (List.map Block.id) (blocks_processBlock hscheme hblock)).trans
        (map_id_updateBlock _ _))

/-- The log of a run of cycles is a run. -/
theorem run_runCommits (hscheme : SettlesOnly scheme) (cycles : List Cycle) {db : Database}
    (hids : (db.blocks.map Block.id).Nodup) :
    Run handler scheme pool db (runCommits handler scheme pool cycles db) := by
  induction cycles generalizing db with
  | nil => exact .nil db
  | cons cycle rest ih =>
      have hcycle : Run handler scheme pool db (cycleCommits handler scheme pool cycle db) :=
        run_blockCommits hscheme (nodup_id_cycleBlocks cycle hids) cycle.now
          fun _ hblock => mem_cycleBlocks hblock
      apply hcycle.append
      apply ih
      rw [map_id_finalDatabase hscheme hcycle]
      exact hids

/-! ## What a run does to a block -/

/-- The ids of the blocks that can still be processed. -/
def pendingIds (pool : PoolConfig) (db : Database) : List Nat :=
  (getPendingBlocksForPool db.blocks pool.id).map Block.id

theorem mem_pendingIds_updateBlock {db : Database} {blocks : List Block} {block : Block} {id : Nat}
    (hmem : id ∈ pendingIds pool { db with blocks := updateBlock blocks block }) :
    (id ≠ block.id ∧ id ∈ pendingIds pool { db with blocks := blocks }) ∨
      (id = block.id ∧ block.status = .pending) := by
  obtain ⟨row', hrow', rfl⟩ := List.mem_map.mp hmem
  obtain ⟨hupdated, hpending⟩ := List.mem_filter.mp hrow'
  obtain ⟨row, hrow, rfl⟩ := List.mem_map.mp hupdated
  by_cases heq : row.id = block.id
  · rw [if_pos heq] at hpending ⊢
    exact Or.inr ⟨heq, (of_decide_eq_true hpending).2⟩
  · rw [if_neg heq] at hpending ⊢
    exact Or.inl ⟨heq, List.mem_map_of_mem (List.mem_filter.mpr ⟨hrow, hpending⟩)⟩

/-- No transaction makes a block pending again. -/
theorem pendingIds_processBlock (hscheme : SettlesOnly scheme) {db : Database} {block : Block}
    {now : Nat} {result : Database × Nat}
    (hpending : ∃ row ∈ getPendingBlocksForPool db.blocks pool.id,
      row.id = block.id ∧ row.created = block.created)
    (hblock : processBlock handler scheme pool .none now block db = .ok result) :
    pendingIds pool result.1 ⊆ pendingIds pool db ∧
      (block.status ≠ .pending → block.id ∉ pendingIds pool result.1) := by
  have hids : pendingIds pool result.1 = pendingIds pool
      { db with blocks := updateBlock db.blocks (withEfforts handler pool block db) } := by
    rw [pendingIds, blocks_processBlock hscheme hblock]
    rfl
  obtain ⟨row, hrow, hid, _⟩ := hpending
  rw [hids]
  constructor
  · intro id hmem
    rcases mem_pendingIds_updateBlock hmem with ⟨_, hmem⟩ | ⟨heq, _⟩
    · exact hmem
    · rw [heq]
      exact List.mem_map.mpr ⟨row, hrow, hid⟩
  · intro hstatus hmem
    rcases mem_pendingIds_updateBlock hmem with ⟨hne, _⟩ | ⟨_, heq⟩
    · exact hne rfl
    · exact hstatus heq

/-- A block that is not pending is not processed in a run. -/
theorem Run.not_mem_of_not_pending (hscheme : SettlesOnly scheme) {db : Database}
    {log : List Commit} (h : Run handler scheme pool db log) {id : Nat}
    (hid : id ∉ pendingIds pool db) : ∀ commit ∈ log, commit.block.id ≠ id := by
  induction h with
  | nil db => simp
  | cons pending commit _ ih =>
      obtain ⟨now, n, hblock⟩ := commit
      have hsub := (pendingIds_processBlock hscheme pending hblock).1
      intro c hc
      rcases List.mem_cons.mp hc with rfl | hc
      · obtain ⟨row, hrow, heq, _⟩ := pending
        rintro rfl
        exact hid (List.mem_map.mpr ⟨row, hrow, heq⟩)
      · exact ih (fun hmem => hid (hsub hmem)) c hc

theorem Run.drop {log : List Commit} (pre : List Commit) {db : Database}
    (h : Run handler scheme pool db (pre ++ log)) :
    Run handler scheme pool (finalDatabase db pre) log := by
  induction pre generalizing db with
  | nil => exact h
  | cons commit pre ih =>
      cases h with
      | cons _ _ rest => exact ih rest

theorem Run.take {log : List Commit} (pre : List Commit) {db : Database}
    (h : Run handler scheme pool db (pre ++ log)) : Run handler scheme pool db pre := by
  induction pre generalizing db with
  | nil => exact .nil db
  | cons commit pre ih =>
      cases h with
      | cons pending commit rest => exact .cons pending commit (ih rest)

/-- A block is confirmed or orphaned once, and not processed again. -/
theorem Run.decided_once (hscheme : SettlesOnly scheme) {db : Database} {pre post : List Commit}
    {commit : Commit} (h : Run handler scheme pool db (pre ++ commit :: post))
    (hstatus : commit.block.status ≠ .pending) :
    ∀ later ∈ post, later.block.id ≠ commit.block.id := by
  cases h.drop with
  | cons pending commit rest =>
      obtain ⟨now, n, hblock⟩ := commit
      exact rest.not_mem_of_not_pending hscheme
        ((pendingIds_processBlock hscheme pending hblock).2 hstatus)

end Runs

end Miningcore
