import Mathlib.Data.List.Induction
import Miningcore.Blockchain.Ethereum.BlockClassification

/-!
# What confirms the rows of an Ethereum pool

A cycle classifies all pending rows against the stored ones before it writes the
first. What is stored keeps an uncle from a second row in a later cycle, and the
order of writing keeps a block from one.
-/

namespace Miningcore

open Foundation BlockRepository PayoutManager

namespace EthereumPayoutHandler

open Ethereum

/-- A cycle with what the node answers to its classification. -/
structure EthereumCycle where
  ct : CancellationToken
  now : ℕ
  node : Node

section cycles

variable (handler : PayoutHandler) (scheme : PayoutScheme) (pool : PoolConfig)
  (config : EthereumClassifyConfig)

def updateBalances (cycle : EthereumCycle) (db : Database) : Database × Except Exception ℕ :=
  updatePoolBalances handler scheme pool cycle.ct cycle.now
    (classifyBlocks config pool db.blocks cycle.node) db

/-- The database after a run of cycles. -/
def runCycles (cycles : List EthereumCycle) (db : Database) : Database :=
  cycles.foldl (fun db cycle => (updateBalances handler scheme pool config cycle db).1) db

/-- A pending row of the pool. -/
def IsPending (row : Block) : Prop := row.poolId = pool.id ∧ row.status = .pending

/-- A row that is not decided about. -/
structure Stays (row row' : Block) : Prop where
  same : SameRow row row'
  status : row'.status = row.status
  blockHeight : row'.blockHeight = row.blockHeight

/-- A pending row that is written as it was classified. -/
structure Decided (cycle : EthereumCycle) (rows : List Block) (row row' : Block) : Prop where
  enoughPeers : cycle.node.enoughPeers = true
  pending : IsPending pool row
  verdict : ∃ block, SameRow row block ∧ Verdict config pool rows cycle.node row block ∧
    WrittenFrom block row row'

/-- The rows before and after a cycle. Whatever row changes, the earlier ones were written. -/
structure Moves (cycle : EthereumCycle) (rows : List Block) (write : Block → Block) : Prop where
  kept : ∀ row ∈ rows, ¬IsPending pool row → write row = row
  pending : ∀ row ∈ rows, IsPending pool row →
    Stays row (write row) ∨ Decided pool config cycle rows row (write row)
  earlier : ∀ row ∈ rows, ∀ row' ∈ rows, IsPending pool row →
    Decided pool config cycle rows row' (write row') → row.created < row'.created →
      (write row').status ≠ row'.status → Decided pool config cycle rows row (write row)

variable {handler scheme pool config}

theorem Stays.refl (row : Block) : Stays row row := ⟨⟨rfl, rfl, rfl⟩, rfl, rfl⟩

/-- Every pending row is returned as it is classified. -/
theorem forall₂_classifyAll {rows blocks results : List Block} {node : Node}
    (h : classifyAll config pool rows node blocks = .ok results) :
    List.Forall₂ (fun row block => classifyBlock config pool rows node row = .ok block) blocks
      results := by
  induction blocks generalizing results with
  | nil =>
      obtain rfl := Except.ok.inj h
      exact .nil
  | cons row blocks ih =>
      rw [classifyAll] at h
      split at h
      · contradiction
      · rename_i block hblock
        split at h
        · contradiction
        · rename_i others hothers
          obtain rfl := Except.ok.inj h
          exact .cons hblock (ih hothers)

/-- What the classification of a cycle returns for the pending rows. -/
theorem forall₂_classifyBlocks {rows blocks results : List Block} {node : Node}
    (h : classifyBlocks config pool rows node blocks = .ok results) :
    List.Forall₂ (fun row block => SameRow row block ∧
      (node.enoughPeers = true ∧ Verdict config pool rows node row block ∨
        node.enoughPeers = false ∧ block = row)) blocks results := by
  rw [classifyBlocks] at h
  split at h
  · rename_i hpeers
    refine (forall₂_classifyAll h).imp fun row block hblock => ?_
    obtain ⟨hsame, hverdict⟩ := verdict_classifyBlock hblock
    exact ⟨hsame, Or.inl ⟨hpeers, hverdict⟩⟩
  · rename_i hpeers
    obtain rfl := Except.ok.inj h
    refine List.forall₂_same.mpr fun row _ => ?_
    exact ⟨⟨rfl, rfl, rfl⟩, Or.inr ⟨Bool.eq_false_iff.mpr hpeers, rfl⟩⟩

theorem exists_of_forall₂ {α β : Type} {R : α → β → Prop} {as : List α} {bs : List β}
    (h : List.Forall₂ R as bs) : ∀ a ∈ as, ∃ b ∈ bs, R a b := by
  induction h with
  | nil => exact fun a ha => absurd ha List.not_mem_nil
  | cons hab _ ih =>
      rintro a ha
      obtain rfl | ha := List.mem_cons.mp ha
      · exact ⟨_, List.mem_cons_self, hab⟩
      · obtain ⟨b, hb, hrel⟩ := ih a ha
        exact ⟨b, List.mem_cons_of_mem _ hb, hrel⟩

/-- A cycle decides pending rows only, and earlier ones before later ones. -/
theorem moves_updateBalances (hscheme : SettlesOnly scheme) (cycle : EthereumCycle) {db : Database}
    (hids : (db.blocks.map Block.id).Nodup) :
    ∃ write, (updateBalances handler scheme pool config cycle db).1.blocks = db.blocks.map write ∧
      Moves pool config cycle db.blocks write := by
  cases hclassify : classifyBlocks config pool db.blocks cycle.node
      (getPendingBlocksForPool db.blocks pool.id) with
  | error e =>
      refine ⟨id, ?_, fun _ _ _ => rfl, fun row _ _ => Or.inl (Stays.refl row), ?_⟩
      · rw [updateBalances, updatePoolBalances, hclassify]
        exact (List.map_id _).symm
      · intro _ _ _ _ _ _ _ hchanged
        exact absurd rfl hchanged
  | ok results =>
      have hrelated := forall₂_classifyBlocks hclassify
      have hresults : results.map Block.id =
          (getPendingBlocksForPool db.blocks pool.id).map Block.id := by
        have hsame := List.forall₂_map_left_iff.mpr (List.forall₂_map_right_iff.mpr
          (hrelated.imp fun row block h => h.1.1.symm))
        rw [List.forall₂_eq_eq_eq] at hsame
        exact hsame.symm
      have hnodup : (results.map Block.id).Nodup := by
        rw [hresults]
        exact hids.sublist (List.filter_sublist.map Block.id)
      obtain ⟨blocks, done, rest, write, hperm, hsorted, hwrite, hprogress⟩ :=
        @exists_progress_updatePoolBalances handler scheme pool cycle.ct hscheme cycle.now
          (classifyBlocks config pool db.blocks cycle.node) db results hclassify hnodup
      have hnodup' : (blocks.map Block.id).Nodup := (hperm.map Block.id).nodup_iff.mpr hnodup
      -- A pending row is processed as what it was classified as.
      have hblock : ∀ row ∈ db.blocks, IsPending pool row → ∃ block ∈ blocks, SameRow row block ∧
          (cycle.node.enoughPeers = true ∧ Verdict config pool db.blocks cycle.node row block ∨
            cycle.node.enoughPeers = false ∧ block = row) := by
        intro row hrow hpending
        obtain ⟨block, hmem, hverdict⟩ :=
          exists_of_forall₂ hrelated row (mem_pending_iff.mpr ⟨hrow, hpending⟩)
        exact ⟨block, hperm.symm.subset hmem, hverdict⟩
      refine ⟨write, hwrite, ?_, ?_, ?_⟩
      · intro row hrow hsettled
        apply (hprogress.updated hnodup' row).kept
        intro block hmem hid
        obtain ⟨other, hother, hsame, -⟩ :=
          exists_of_forall₂ hrelated.flip block (hperm.subset hmem)
        obtain ⟨hmem', hpending⟩ := mem_pending_iff.mp hother
        obtain rfl := List.inj_on_of_nodup_map hids hmem' hrow (hsame.1.symm.trans hid)
        exact hsettled hpending
      · intro row hrow hpending
        obtain ⟨block, hmem, hsame, hverdict⟩ := hblock row hrow hpending
        obtain hkept | hwritten := (hprogress.updated hnodup' row).written block hmem hsame.1
        · rw [hkept]
          exact Or.inl (Stays.refl row)
        · obtain ⟨hpeers, hverdict⟩ | ⟨-, rfl⟩ := hverdict
          · exact Or.inr ⟨hpeers, hpending, block, hsame, hverdict, hwritten⟩
          · exact Or.inl ⟨⟨hwritten.id, hwritten.poolId, hwritten.created⟩, hwritten.status,
              hwritten.blockHeight⟩
      · intro row hrow row' hrow' hpending hdecided hearlier hchanged
        obtain ⟨block, hmem, hsame, hverdict⟩ := hblock row hrow hpending
        obtain ⟨block', hmem', hsame', -⟩ := hblock row' hrow' hdecided.pending
        have hwritten := hprogress.written_earlier hnodup' hsorted hmem hmem'
          (by rw [hsame.2.2, hsame'.2.2]; exact hearlier) hsame.1.symm hsame'.1.symm
          (fun hkept => hchanged (congrArg Block.status hkept))
        obtain ⟨hpeers, hverdict⟩ | ⟨hpeers, -⟩ := hverdict
        · exact ⟨hpeers, hpending, block, hsame, hverdict, hwritten⟩
        · rw [hdecided.enoughPeers] at hpeers
          contradiction

theorem runCycles_append (cycles cycles' : List EthereumCycle) (db : Database) :
    runCycles handler scheme pool config (cycles ++ cycles') db =
      runCycles handler scheme pool config cycles'
        (runCycles handler scheme pool config cycles db) := List.foldl_append

/-- A row before and after a run. -/
structure Lives (pool : PoolConfig) (row row' : Block) : Prop where
  same : SameRow row row'
  settled : ¬IsPending pool row → row' = row
  pending : IsPending pool row' → IsPending pool row ∧ row'.blockHeight = row.blockHeight

theorem Lives.refl (row : Block) : Lives pool row row :=
  ⟨⟨rfl, rfl, rfl⟩, fun _ => rfl, fun h => ⟨h, rfl⟩⟩

theorem Lives.trans {row row' row'' : Block} (h : Lives pool row row')
    (h' : Lives pool row' row'') :
    Lives pool row row'' where
  same := h.same.trans h'.same
  settled hsettled := by
    have hrow := h.settled hsettled
    rw [h'.settled (by rw [hrow]; exact hsettled), hrow]
  pending hpending := by
    obtain ⟨hpending', hheight'⟩ := h'.pending hpending
    obtain ⟨hpending, hheight⟩ := h.pending hpending'
    exact ⟨hpending, hheight'.trans hheight⟩

theorem Decided.same {cycle : EthereumCycle} {rows : List Block} {row row' : Block}
    (h : Decided pool config cycle rows row row') : SameRow row row' := by
  obtain ⟨block, hsame, -, hwritten⟩ := h.verdict
  exact ⟨hwritten.id, hwritten.poolId, hwritten.created⟩

/-- A row that is decided about and stays pending keeps its height. -/
theorem Decided.blockHeight {cycle : EthereumCycle} {rows : List Block} {row row' : Block}
    (h : Decided pool config cycle rows row row') (hpending : row'.status = .pending) :
    row'.blockHeight = row.blockHeight := by
  obtain ⟨block, -, hverdict, hwritten⟩ := h.verdict
  have hstatus : block.status = .pending := hwritten.status.symm.trans hpending
  rw [hwritten.blockHeight]
  cases hverdict with
  | stays _ _ hheight => exact hheight
  | block _ _ _ _ _ _ hconfirmed => exact absurd (hconfirmed.symm.trans hstatus) (by decide)
  | duplicate _ _ _ hsettled => exact absurd hstatus hsettled
  | uncle _ _ _ _ _ hsettled => exact absurd hstatus hsettled
  | lost _ horphaned => exact absurd (horphaned.symm.trans hstatus) (by decide)

theorem Moves.lives {cycle : EthereumCycle} {rows : List Block} {write : Block → Block}
    (h : Moves pool config cycle rows write) {row : Block} (hrow : row ∈ rows) :
    Lives pool row (write row) := by
  by_cases hpending : IsPending pool row
  · refine ⟨?_, fun hsettled => absurd hpending hsettled, fun hpending' => ⟨hpending, ?_⟩⟩
    · obtain hstays | hdecided := h.pending row hrow hpending
      · exact hstays.same
      · exact hdecided.same
    · obtain hstays | hdecided := h.pending row hrow hpending
      · exact hstays.blockHeight
      · exact hdecided.blockHeight hpending'.2
  · rw [h.kept row hrow hpending]
    exact Lives.refl row

theorem nodup_id_of_lives {rows : List Block} {write : Block → Block}
    (h : ∀ row ∈ rows, Lives pool row (write row)) (hids : (rows.map Block.id).Nodup) :
    ((rows.map write).map Block.id).Nodup := by
  have hsame : rows.map (Block.id ∘ write) = rows.map Block.id :=
    List.map_congr_left fun row hrow => (h row hrow).same.1
  rw [List.map_map, hsame]
  exact hids

theorem lives_runCycles (hscheme : SettlesOnly scheme) (cycles : List EthereumCycle) {db : Database}
    (hids : (db.blocks.map Block.id).Nodup) :
    ∃ write, (runCycles handler scheme pool config cycles db).blocks = db.blocks.map write ∧
      ∀ row ∈ db.blocks, Lives pool row (write row) := by
  induction cycles generalizing db with
  | nil => exact ⟨id, (List.map_id _).symm, fun row _ => Lives.refl row⟩
  | cons cycle cycles ih =>
      obtain ⟨first, hfirst, hmoves⟩ := @moves_updateBalances handler scheme pool config hscheme
        cycle db hids
      have hlives : ∀ row ∈ db.blocks, Lives pool row (first row) := fun row hrow =>
        hmoves.lives hrow
      obtain ⟨write, hwrite, hrest⟩ :=
        @ih (updateBalances handler scheme pool config cycle db).1 (by
          rw [hfirst]
          exact nodup_id_of_lives hlives hids)
      refine ⟨write ∘ first, ?_, fun row hrow => (hlives row hrow).trans (hrest _ ?_)⟩
      · rw [← List.map_map, ← hfirst]
        exact hwrite
      · rw [hfirst]
        exact List.mem_map_of_mem hrow

end cycles

/-! ## Why rows are confirmed -/

/-- What a row is confirmed for: a block of the chain or an uncle, by its hash, or a later row. -/
inductive Reason
  | chainBlock (hash : String)
  | uncle (hash : String)
  | laterRow
deriving DecidableEq

section reasons

variable (handler : PayoutHandler) (scheme : PayoutScheme) (pool : PoolConfig)
  (config : EthereumClassifyConfig)

/-- What stands behind a confirmed row. A row that is an uncle for a later one is not held against
the chain. -/
def ConfirmedFor (rows : List Block) (node : Node) (row row' : Block) : Reason → Prop
  | .chainBlock hash =>
      Mined pool node row ∧ Matured node row.id row.blockHeight ∧
        isDuplicated pool rows row = false ∧
          (∃ current, node.current row.id row.blockHeight = some current ∧
            sameAddress current.miner pool.address = true ∧ current.hash = hash) ∧
            row'.type = some "block" ∧ row'.hash = some hash ∧ row'.blockHeight = row.blockHeight
  | .uncle hash =>
      ¬Mined pool node row ∧ ∃ uncle, uncle.hash = hash ∧ References config pool node row uncle ∧
        (∃ height info, node.blockAt height = some info ∧ hash ∈ info.uncles) ∧
          Matured node row.id uncle.height ∧
            getBlockByPoolHeightAndType rows pool.id uncle.height "uncle" = none ∧
              row'.type = some "uncle" ∧ row'.hash = some hash ∧ row'.blockHeight = uncle.height
  | .laterRow =>
      Mined pool node row ∧ Matured node row.id row.blockHeight ∧
        isDuplicated pool rows row = true ∧ row'.type = some "uncle" ∧
          row'.blockHeight = row.blockHeight

/-- A cycle that follows others confirms a row. -/
def Confirms (pre : List EthereumCycle) (cycle : EthereumCycle) (db : Database) (id : ℕ)
    (reason : Reason) : Prop :=
  ∃ row ∈ (runCycles handler scheme pool config pre db).blocks, row.id = id ∧
    row.status = .pending ∧
      ∃ row' ∈ (runCycles handler scheme pool config (pre ++ [cycle]) db).blocks, row'.id = id ∧
        row'.status = .confirmed ∧
          ConfirmedFor pool config (runCycles handler scheme pool config pre db).blocks cycle.node
            row row' reason

/-- The node answers with what it is asked for, and a hash is that of one height. -/
structure Reports (heightOf : String → ℕ) (node : Node) : Prop where
  current : ∀ id height block, node.current id height = some block → heightOf block.hash = height
  uncle : ∀ id height info index uncle, node.blockAt height = some info →
    node.uncleAt id height index = some uncle → index < info.uncles.length →
      info.uncles[index]? = some uncle.hash ∧ heightOf uncle.hash = uncle.height

variable {handler scheme pool config}

/-- A pending row that is confirmed has been decided about. -/
theorem Moves.decided {cycle : EthereumCycle} {rows : List Block} {write : Block → Block}
    (h : Moves pool config cycle rows write) {row : Block} (hrow : row ∈ rows)
    (hpending : row.status = .pending) (hconfirmed : (write row).status = .confirmed) :
    Decided pool config cycle rows row (write row) := by
  have hchanged : (write row).status ≠ row.status := by
    rw [hpending, hconfirmed]
    decide
  by_cases hpool : IsPending pool row
  · obtain hstays | hdecided := h.pending row hrow hpool
    · exact absurd hstays.status hchanged
    · exact hdecided
  · exact absurd (congrArg Block.status (h.kept row hrow hpool)) hchanged

theorem Decided.confirmedFor {heightOf : String → ℕ} {cycle : EthereumCycle} {rows : List Block}
    {row row' : Block} (h : Decided pool config cycle rows row row')
    (hreports : Reports heightOf cycle.node) (hconfirmed : row'.status = .confirmed) :
    ∃ reason, ConfirmedFor pool config rows cycle.node row row' reason := by
  obtain ⟨block, -, hverdict, hwritten⟩ := h.verdict
  have hstatus : block.status = .confirmed := hwritten.status.symm.trans hconfirmed
  cases hverdict with
  | stays _ hstays =>
      have hpending := hstays.trans h.pending.2
      rw [hstatus] at hpending
      contradiction
  | block current hmined hmatured hduplicated hcurrent hminer _ htype hhash hheight =>
      exact ⟨.chainBlock current.hash, hmined, hmatured, hduplicated,
        ⟨current, hcurrent, hminer, rfl⟩,
        hwritten.type.trans htype, hwritten.hash.trans hhash, hwritten.blockHeight.trans hheight⟩
  | duplicate hmined hmatured hduplicated _ htype hheight =>
      exact ⟨.laterRow, hmined, hmatured, hduplicated, hwritten.type.trans htype,
        hwritten.blockHeight.trans hheight⟩
  | uncle uncle hmissed hreferences hmatured hfree _ htype hhash hheight =>
      have hlisted : ∃ height info, cycle.node.blockAt height = some info ∧
          uncle.hash ∈ info.uncles := by
        obtain ⟨latest, -, height, -, info, hinfo, ⟨index, hindex, huncle⟩, -⟩ := hreferences
        exact ⟨height, info, hinfo,
          List.mem_of_getElem?
            (hreports.uncle row.id height info index uncle hinfo huncle hindex).1⟩
      exact ⟨.uncle uncle.hash, hmissed, uncle, rfl, hreferences, hlisted, hmatured, hfree,
        hwritten.type.trans htype, hwritten.hash.trans hhash, hwritten.blockHeight.trans hheight⟩
  | lost _ horphaned =>
      rw [hstatus] at horphaned
      contradiction

theorem nodup_id_runCycles (hscheme : SettlesOnly scheme) (cycles : List EthereumCycle)
    {db : Database} (hids : (db.blocks.map Block.id).Nodup) :
    ((runCycles handler scheme pool config cycles db).blocks.map Block.id).Nodup := by
  obtain ⟨write, hwrite, hlives⟩ := @lives_runCycles handler scheme pool config hscheme cycles db
    hids
  rw [hwrite]
  exact nodup_id_of_lives hlives hids

/-- A confirmation is the decision about one row. -/
theorem Confirms.decided (hscheme : SettlesOnly scheme) {pre : List EthereumCycle}
    {cycle : EthereumCycle} {db : Database} (hids : (db.blocks.map Block.id).Nodup) {id : ℕ}
    {reason : Reason} (h : Confirms handler scheme pool config pre cycle db id reason) :
    ∃ write, (runCycles handler scheme pool config (pre ++ [cycle]) db).blocks =
        (runCycles handler scheme pool config pre db).blocks.map write ∧
      Moves pool config cycle (runCycles handler scheme pool config pre db).blocks write ∧
        ∃ row ∈ (runCycles handler scheme pool config pre db).blocks, row.id = id ∧
          (write row).status = .confirmed ∧
          Decided pool config cycle (runCycles handler scheme pool config pre db).blocks row
            (write row) ∧
          ConfirmedFor pool config (runCycles handler scheme pool config pre db).blocks cycle.node
            row (write row) reason := by
  have hnodup := @nodup_id_runCycles handler scheme pool config hscheme pre db hids
  obtain ⟨write, hwrite, hmoves⟩ := @moves_updateBalances handler scheme pool config hscheme cycle
    (runCycles handler scheme pool config pre db) hnodup
  have hrun : (runCycles handler scheme pool config (pre ++ [cycle]) db).blocks =
      (runCycles handler scheme pool config pre db).blocks.map write := by
    rw [runCycles_append]
    exact hwrite
  obtain ⟨row, hrow, hid, hpending, row', hrow', hid', hconfirmed, hfor⟩ := h
  rw [hrun] at hrow'
  obtain ⟨other, hother, rfl⟩ := List.mem_map.mp hrow'
  obtain rfl := List.inj_on_of_nodup_map hnodup hother hrow
    ((hmoves.lives hother).same.1.symm.trans (hid'.trans hid.symm))
  exact ⟨write, hrun, hmoves, other, hrow, hid, hconfirmed,
    hmoves.decided hrow hpending hconfirmed, hfor⟩

/-- An uncle that a cycle has confirmed a row for is stored, and passed over from then on. -/
theorem uncle_once (hscheme : SettlesOnly scheme) {heightOf : String → ℕ}
    {pre mid : List EthereumCycle} {cycle cycle' : EthereumCycle}
    (hreports : Reports heightOf cycle.node) (hreports' : Reports heightOf cycle'.node)
    {db : Database} (hids : (db.blocks.map Block.id).Nodup) {id id' : ℕ} {hash : String}
    (h : Confirms handler scheme pool config pre cycle db id (.uncle hash)) :
    ¬Confirms handler scheme pool config (pre ++ cycle :: mid) cycle' db id' (.uncle hash) := by
  intro h'
  obtain ⟨write, hwrite, hmoves, row, hrow, -, hconfirmed, hdecided, -, uncle, rfl, hreferences, -,
    -, -, htype, -, hheight⟩ := h.decided hscheme hids
  obtain ⟨_, _, _, row', _, _, _, _, _, uncle', hhash, hreferences', -, -, hfree, -⟩ :=
    h'.decided hscheme hids
  have hsame : uncle'.height = uncle.height := by
    obtain ⟨_, -, height, -, info, hinfo, ⟨index, hindex, huncle⟩, -⟩ := hreferences
    obtain ⟨_, -, height', -, info', hinfo', ⟨index', hindex', huncle'⟩, -⟩ := hreferences'
    rw [← (hreports.uncle _ _ _ _ _ hinfo huncle hindex).2,
      ← (hreports'.uncle _ _ _ _ _ hinfo' huncle' hindex').2, hhash]
  have hstored : write row ∈ (runCycles handler scheme pool config (pre ++ [cycle]) db).blocks := by
    rw [hwrite]
    exact List.mem_map_of_mem hrow
  obtain ⟨later, hlater, hlives⟩ := @lives_runCycles handler scheme pool config hscheme mid
    (runCycles handler scheme pool config (pre ++ [cycle]) db)
    (nodup_id_runCycles hscheme (pre ++ [cycle]) hids)
  have hmem :
      write row ∈ (runCycles handler scheme pool config (pre ++ cycle :: mid) db).blocks := by
    rw [List.append_cons, runCycles_append, hlater]
    have hsettled : ¬IsPending pool (write row) := by
      rintro ⟨-, hpending⟩
      rw [hconfirmed] at hpending
      contradiction
    rw [← (hlives _ hstored).settled hsettled]
    exact List.mem_map_of_mem hstored
  rw [getBlockByPoolHeightAndType, List.head?_eq_none_iff, List.filter_eq_nil_iff] at hfree
  refine hfree _ hmem (decide_eq_true ⟨?_, hheight.trans hsame.symm, htype⟩)
  exact hdecided.same.2.1.trans hdecided.pending.1

/-- Every row of a later state was there before. -/
theorem exists_before (hscheme : SettlesOnly scheme) (pre mid : List EthereumCycle) {db : Database}
    (hids : (db.blocks.map Block.id).Nodup) {row' : Block}
    (hrow' : row' ∈ (runCycles handler scheme pool config (pre ++ mid) db).blocks) :
    ∃ row ∈ (runCycles handler scheme pool config pre db).blocks, Lives pool row row' := by
  obtain ⟨write, hwrite, hlives⟩ := @lives_runCycles handler scheme pool config hscheme mid
    (runCycles handler scheme pool config pre db) (nodup_id_runCycles hscheme pre hids)
  rw [runCycles_append, hwrite] at hrow'
  obtain ⟨row, hrow, rfl⟩ := List.mem_map.mp hrow'
  exact ⟨row, hrow, hlives row hrow⟩

theorem one_lt_length_of_mem {α : Type} {a b : α} {l : List α} (ha : a ∈ l) (hb : b ∈ l)
    (hne : a ≠ b) : 1 < l.length := by
  cases l with
  | nil => exact absurd ha List.not_mem_nil
  | cons x l =>
      cases l with
      | nil => exact absurd ((List.mem_singleton.mp ha).trans (List.mem_singleton.mp hb).symm) hne
      | cons y l => simp

/-- A pending row with a later one at its height is an uncle, if the block there is the pool's. -/
theorem isDuplicated_of_later {rows : List Block} {row row' : Block} (hrow : row ∈ rows)
    (hrow' : row' ∈ rows) (hpending : IsPending pool row) (hpending' : IsPending pool row')
    (hheight : row'.blockHeight = row.blockHeight) (hlater : row.created < row'.created) :
    isDuplicated pool rows row = true := by
  have hmem : ∀ other ∈ rows, IsPending pool other → other.blockHeight = row.blockHeight →
      other ∈ rows.filter fun block => block.poolId = pool.id ∧
        block.blockHeight = row.blockHeight ∧ block.status ∈ [row.status] := by
    intro other hother hpool hsame
    rw [List.mem_filter, decide_eq_true_eq]
    exact ⟨hother, hpool.1, hsame, List.mem_singleton.mpr (hpool.2.trans hpending.2.symm)⟩
  rw [isDuplicated, decide_eq_true_eq]
  constructor
  · rw [getPoolDuplicateBlockCountByPoolHeightNoTypeAndStatus]
    refine one_lt_length_of_mem (hmem row hrow hpending rfl) (hmem row' hrow' hpending' hheight) ?_
    rintro rfl
    exact lt_irrefl _ hlater
  · rw [getPoolDuplicateBlockAfterCountByPoolHeightNoTypeAndStatus]
    refine List.length_pos_of_mem (a := row') ?_
    rw [List.mem_filter, decide_eq_true_eq]
    exact ⟨hrow', hpending'.1, hheight, List.mem_singleton.mpr (hpending'.2.trans hpending.2.symm),
      hlater⟩

/-- The rows that a chain block could pay are told apart by their creation, and the cycles agree on
whether they have matured. -/
structure Ordered (pool : PoolConfig) (cycles : List EthereumCycle) (rows : List Block) : Prop where
  created : ∀ row ∈ rows, ∀ row' ∈ rows, IsPending pool row → IsPending pool row' →
    row.blockHeight = row'.blockHeight → row.created = row'.created → row.id = row'.id
  matured : ∀ cycle ∈ cycles, ∀ row ∈ rows, ∀ row' ∈ rows, IsPending pool row →
    IsPending pool row' → row.blockHeight = row'.blockHeight →
      Matured cycle.node row.id row.blockHeight → Matured cycle.node row'.id row'.blockHeight

/-- A row that a later one shadows is settled by the cycle that confirms the later one. -/
theorem Decided.settled_of_shadowed {cycle : EthereumCycle} {rows : List Block} {row row' : Block}
    (h : Decided pool config cycle rows row row') (hmined : Mined pool cycle.node row)
    (hmatured : Matured cycle.node row.id row.blockHeight)
    (hduplicated : isDuplicated pool rows row = true) : row'.status ≠ .pending := by
  obtain ⟨block, -, hverdict, hwritten⟩ := h.verdict
  rw [hwritten.status]
  cases hverdict with
  | stays hopen =>
      rw [hopen hmined hmatured] at hduplicated
      contradiction
  | block _ _ _ hnot =>
      rw [hnot] at hduplicated
      contradiction
  | duplicate _ _ _ hsettled => exact hsettled
  | uncle _ hmissed => exact absurd hmined hmissed
  | lost hmissed => exact absurd hmined hmissed

/-- A row that a cycle decides about was pending from the start. -/
theorem lives_of_decided (hscheme : SettlesOnly scheme) {pre : List EthereumCycle} {db : Database}
    (hids : (db.blocks.map Block.id).Nodup) {row row' : Block} (hrow : row ∈ db.blocks)
    (hrow' : row' ∈ (runCycles handler scheme pool config pre db).blocks) (hid : row'.id = row.id)
    (hpending : IsPending pool row') :
    IsPending pool row ∧ row'.blockHeight = row.blockHeight ∧ row'.created = row.created := by
  obtain ⟨first, hfirst, hlives⟩ := @exists_before handler scheme pool config hscheme [] pre db hids
    row' hrow'
  obtain rfl := List.inj_on_of_nodup_map hids hfirst hrow (hlives.same.1.symm.trans hid)
  obtain ⟨hfirst_pending, hheight⟩ := hlives.pending hpending
  exact ⟨hfirst_pending, hheight, hlives.same.2.2⟩

/-- While both rows are pending, a later one shadows an earlier one of its height. -/
theorem isDuplicated_of_earlier (hscheme : SettlesOnly scheme) {cycles : List EthereumCycle}
    {db : Database} (hids : (db.blocks.map Block.id).Nodup) {row row' : Block}
    (hrow : row ∈ db.blocks) (hrow' : row' ∈ db.blocks) (hearlier : row.created < row'.created)
    (hheights : row.blockHeight = row'.blockHeight) {v v' : Block}
    (hv : v ∈ (runCycles handler scheme pool config cycles db).blocks)
    (hv' : v' ∈ (runCycles handler scheme pool config cycles db).blocks) (hid : v.id = row.id)
    (hid' : v'.id = row'.id) (hpending : IsPending pool v) (hpending' : IsPending pool v') :
    isDuplicated pool (runCycles handler scheme pool config cycles db).blocks v = true := by
  obtain ⟨-, hheight, hcreated⟩ := lives_of_decided hscheme hids hrow hv hid hpending
  obtain ⟨-, hheight', hcreated'⟩ := lives_of_decided hscheme hids hrow' hv' hid' hpending'
  apply isDuplicated_of_later hv hv' hpending hpending'
  · rw [hheight, hheight', hheights]
  · rw [hcreated, hcreated']
    exact hearlier

/-- A row that is pending behind a cycle was left pending by it. -/
theorem pending_of_pending_later (hscheme : SettlesOnly scheme) {pre mid : List EthereumCycle}
    {cycle : EthereumCycle} {db : Database} (hids : (db.blocks.map Block.id).Nodup)
    {write : Block → Block}
    (hwrite : (runCycles handler scheme pool config (pre ++ [cycle]) db).blocks =
      (runCycles handler scheme pool config pre db).blocks.map write)
    (hmoves : Moves pool config cycle (runCycles handler scheme pool config pre db).blocks write)
    {v r : Block} (hv : v ∈ (runCycles handler scheme pool config pre db).blocks)
    (hr : r ∈ (runCycles handler scheme pool config (pre ++ cycle :: mid) db).blocks)
    (hid : r.id = v.id) (hpending : IsPending pool r) : (write v).status = .pending := by
  rw [List.append_cons] at hr
  obtain ⟨w, hw, hlives⟩ := exists_before hscheme (pre ++ [cycle]) mid hids hr
  rw [hwrite] at hw
  obtain ⟨x, hx, rfl⟩ := List.mem_map.mp hw
  obtain rfl := List.inj_on_of_nodup_map (nodup_id_runCycles hscheme pre hids) hx hv
    ((hmoves.lives hx).same.1.symm.trans (hlives.same.1.symm.trans hid))
  exact (hlives.pending hpending).1.2

/-- No chain block confirms a row and a later one. -/
theorem chainBlock_not_earlier (hscheme : SettlesOnly scheme) {heightOf : String → ℕ}
    {cycles : List EthereumCycle} (hreports : ∀ cycle ∈ cycles, Reports heightOf cycle.node)
    {db : Database} (hids : (db.blocks.map Block.id).Nodup)
    (hordered : Ordered pool cycles db.blocks)
    {pre post pre' post' : List EthereumCycle} {cycle cycle' : EthereumCycle}
    (hcycles : cycles = pre ++ cycle :: post) (hcycles' : cycles = pre' ++ cycle' :: post')
    {hash : String} {row row' : Block} (hrow : row ∈ db.blocks) (hrow' : row' ∈ db.blocks)
    (hearlier : row.created < row'.created)
    (h : Confirms handler scheme pool config pre cycle db row.id (.chainBlock hash)) :
    ¬Confirms handler scheme pool config pre' cycle' db row'.id (.chainBlock hash) := by
  intro h'
  obtain ⟨_, -, -, r, hr, hid, -, hdecided, hmined, hmatured, hnot, ⟨current, hcurrent, -, rfl⟩, -⟩ :=
    h.decided hscheme hids
  obtain ⟨write', hwrite', hmoves', r', hr', hid', hconfirmed', hdecided', hmined', hmatured', -,
    ⟨current', hcurrent', -, hhash⟩, -⟩ := h'.decided hscheme hids
  have hcycle : cycle ∈ cycles := by
    rw [hcycles]
    exact List.mem_append_right _ List.mem_cons_self
  have hcycle' : cycle' ∈ cycles := by
    rw [hcycles']
    exact List.mem_append_right _ List.mem_cons_self
  obtain ⟨hpending, hheight, hcreated⟩ := lives_of_decided hscheme hids hrow hr hid hdecided.pending
  obtain ⟨hpending', hheight', hcreated'⟩ :=
    lives_of_decided hscheme hids hrow' hr' hid' hdecided'.pending
  have hsame : r'.blockHeight = r.blockHeight := by
    rw [← (hreports cycle hcycle).current _ _ _ hcurrent,
      ← (hreports cycle' hcycle').current _ _ _ hcurrent', hhash]
  have hrows : row.blockHeight = row'.blockHeight := by
    rw [← hheight, ← hheight', hsame]
  have htogether : ∀ mid, pre' = pre ++ mid → False := by
    rintro mid rfl
    obtain ⟨v', hv', hlives'⟩ := exists_before hscheme pre mid hids hr'
    rw [isDuplicated_of_earlier hscheme hids hrow hrow' hearlier hrows hr hv' hid
      (hlives'.same.1.symm.trans hid') hdecided.pending
      (hlives'.pending hdecided'.pending).1] at hnot
    contradiction
  obtain ⟨mid, hmid, -⟩ | ⟨mid, hmid, hrest⟩ :=
    List.append_eq_append_iff.mp (hcycles.symm.trans hcycles')
  · exact htogether mid hmid
  · cases mid with
    | nil => exact htogether [] (by rw [hmid, List.append_nil, List.append_nil])
    | cons first mid =>
        obtain ⟨rfl, -⟩ := List.cons.inj hrest
        rw [hmid] at hr
        obtain ⟨v, hv, hlives⟩ := exists_before hscheme pre' (cycle' :: mid) hids hr
        obtain ⟨hv_pending, hv_height⟩ := hlives.pending hdecided.pending
        have hvid : v.id = row.id := hlives.same.1.symm.trans hid
        have hv_decided : Decided pool config cycle'
            (runCycles handler scheme pool config pre' db).blocks v (write' v) := by
          apply hmoves'.earlier v hv r' hr' hv_pending hdecided'
          · rw [← hlives.same.2.2, hcreated, hcreated']
            exact hearlier
          · rw [hconfirmed', hdecided'.pending.2]
            decide
        have hv_same : v.blockHeight = r'.blockHeight := by
          rw [← hv_height, hsame]
        have hv_mined : Mined pool cycle'.node v := by
          rw [Mined, hv_same]
          exact hmined'
        have hv_matured : Matured cycle'.node v.id v.blockHeight := by
          rw [hvid, hv_same, hheight', ← hrows]
          refine hordered.matured cycle' hcycle' row' hrow' row hrow hpending' hpending
            hrows.symm ?_
          rw [← hheight', ← hid']
          exact hmatured'
        have hsettled := hv_decided.settled_of_shadowed hv_mined hv_matured
          (isDuplicated_of_earlier hscheme hids hrow hrow' hearlier hrows hv hr' hvid hid'
            hv_pending hdecided'.pending)
        -- It is still pending when the earlier row is confirmed.
        exact hsettled (pending_of_pending_later hscheme hids hwrite' hmoves' hv hr
          (hid.trans hvid.symm) hdecided.pending)

/-- A row that is confirmed for a block of the chain was recorded at its height. -/
theorem Confirms.recorded (hscheme : SettlesOnly scheme) {heightOf : String → ℕ}
    {pre : List EthereumCycle} {cycle : EthereumCycle} (hreports : Reports heightOf cycle.node)
    {db : Database} (hids : (db.blocks.map Block.id).Nodup) {id : ℕ} {hash : String}
    (h : Confirms handler scheme pool config pre cycle db id (.chainBlock hash)) :
    ∃ row ∈ db.blocks, row.id = id ∧ IsPending pool row ∧ row.blockHeight = heightOf hash := by
  obtain ⟨_, -, -, r, hr, hid, -, hdecided, -, -, -, ⟨current, hcurrent, -, rfl⟩, -⟩ :=
    h.decided hscheme hids
  obtain ⟨row, hrow, hlives⟩ :=
    @exists_before handler scheme pool config hscheme [] pre db hids r hr
  obtain ⟨hpending, hheight⟩ := hlives.pending hdecided.pending
  refine ⟨row, hrow, hlives.same.1.symm.trans hid, hpending, ?_⟩
  rw [hreports.current _ _ _ hcurrent, hheight]

/-- Every row that a run confirms has a reason, no two cycles confirm rows for one uncle, and no two
rows are confirmed for one block of the chain, if their creation and the heads keep them in
order. -/
theorem confirmed_rows (hscheme : SettlesOnly scheme) (heightOf : String → ℕ)
    (cycles : List EthereumCycle) (hreports : ∀ cycle ∈ cycles, Reports heightOf cycle.node)
    (db : Database) (hids : (db.blocks.map Block.id).Nodup) :
    (∀ pre cycle post, cycles = pre ++ cycle :: post →
      ∀ row ∈ (runCycles handler scheme pool config pre db).blocks, row.status = .pending →
        ∀ row' ∈ (runCycles handler scheme pool config (pre ++ [cycle]) db).blocks,
          row'.id = row.id → row'.status = .confirmed →
            ∃ reason, Confirms handler scheme pool config pre cycle db row.id reason) ∧
    (∀ pre cycle mid cycle' post, cycles = pre ++ cycle :: mid ++ cycle' :: post →
      ∀ id id' hash, Confirms handler scheme pool config pre cycle db id (.uncle hash) →
        ¬Confirms handler scheme pool config (pre ++ cycle :: mid) cycle' db id' (.uncle hash)) ∧
    (Ordered pool cycles db.blocks → ∀ pre cycle post pre' cycle' post',
      cycles = pre ++ cycle :: post → cycles = pre' ++ cycle' :: post' →
        ∀ id id' hash, Confirms handler scheme pool config pre cycle db id (.chainBlock hash) →
          Confirms handler scheme pool config pre' cycle' db id' (.chainBlock hash) →
          id = id') := by
  refine ⟨?_, ?_, ?_⟩
  · rintro pre cycle post rfl row hrow hpending row' hrow' hid hconfirmed
    have hnodup := @nodup_id_runCycles handler scheme pool config hscheme pre db hids
    obtain ⟨write, hwrite, hmoves⟩ := @moves_updateBalances handler scheme pool config hscheme cycle
      (runCycles handler scheme pool config pre db) hnodup
    have hmem := hrow'
    rw [runCycles_append] at hmem
    change row' ∈ (updateBalances handler scheme pool config cycle
      (runCycles handler scheme pool config pre db)).1.blocks at hmem
    rw [hwrite] at hmem
    obtain ⟨other, hother, rfl⟩ := List.mem_map.mp hmem
    obtain rfl := List.inj_on_of_nodup_map hnodup hother hrow
      ((hmoves.lives hother).same.1.symm.trans hid)
    obtain ⟨reason, hreason⟩ := (hmoves.decided hrow hpending hconfirmed).confirmedFor
      (hreports cycle (List.mem_append_right _ List.mem_cons_self)) hconfirmed
    exact ⟨reason, other, hrow, rfl, hpending, write other, hrow', hid, hconfirmed, hreason⟩
  · rintro pre cycle mid cycle' post rfl id id' hash h
    have hcycle : cycle ∈ pre ++ cycle :: mid ++ cycle' :: post :=
      List.mem_append_left _ (List.mem_append_right _ List.mem_cons_self)
    have hcycle' : cycle' ∈ pre ++ cycle :: mid ++ cycle' :: post :=
      List.mem_append_right _ List.mem_cons_self
    exact uncle_once hscheme (hreports cycle hcycle) (hreports cycle' hcycle') hids h
  · intro hordered pre cycle post pre' cycle' post' hcycles hcycles' id id' hash h h'
    have hcycle : cycle ∈ cycles := by
      rw [hcycles]
      exact List.mem_append_right _ List.mem_cons_self
    have hcycle' : cycle' ∈ cycles := by
      rw [hcycles']
      exact List.mem_append_right _ List.mem_cons_self
    obtain ⟨row, hrow, rfl, hpending, hheight⟩ := h.recorded hscheme (hreports cycle hcycle) hids
    obtain ⟨row', hrow', rfl, hpending', hheight'⟩ :=
      h'.recorded hscheme (hreports cycle' hcycle') hids
    obtain hlt | heq | hgt := lt_trichotomy row.created row'.created
    · exact absurd h' (chainBlock_not_earlier hscheme hreports hids hordered hcycles hcycles' hrow
        hrow' hlt h)
    · exact hordered.created row hrow row' hrow' hpending hpending'
        (hheight.trans hheight'.symm) heq
    · exact absurd h (chainBlock_not_earlier hscheme hreports hids hordered hcycles' hcycles hrow'
        hrow hgt h')

end reasons

section doublePayments

def ethPool : PoolConfig where
  id := "eth"
  address := "0xaa"

def mainConfig : EthereumClassifyConfig where
  chainType := .main
  blockSearchOffset := 3

def pendingRow (id blockHeight created : ℕ) : Block where
  id
  poolId := "eth"
  blockHeight
  miner := "miner"
  reward := 0
  created

def chainBlock (hash miner : String) (uncles : List String) : ChainBlock :=
  ⟨hash, miner, uncles, 0, 0, []⟩

/-- Somebody else has mined the blocks, and that at height 21 references an uncle of the pool. The
pool has mined the block at height 30, which references none. -/
def uncleNode : Node where
  enoughPeers := true
  latest _ := some 60
  blockAt height := some
    (if height = 21 then chainBlock "21" "0xbb" ["u"]
      else if height = 30 then chainBlock "30" "0xaa" []
      else chainBlock "other" "0xbb" [])
  current _ height := if height = 30 then some (chainBlock "30" "0xaa" []) else none
  uncleAt _ _ _ := some ⟨"u", 20, "0xaa"⟩
  receipts _ _ := .ok []

def uncleCycle : EthereumCycle := ⟨.none, 0, uncleNode⟩

def confirmedAs (cycles : List EthereumCycle) (blocks : List Block) :
    List (BlockStatus × Option String × Option String) :=
  (runCycles .base PPLNSPaymentScheme.updateBalances ethPool mainConfig cycles
    { blocks }).blocks.map fun row => (row.status, row.type, row.hash)

/-- Two rows of one batch are confirmed for the same uncle, and a row is confirmed as an uncle where
nothing but a block of the pool stands. -/
theorem confirmedAs_uncles :
    confirmedAs [uncleCycle] [pendingRow 1 20 1, pendingRow 2 21 2] =
        [(.confirmed, some "uncle", some "u"), (.confirmed, some "uncle", some "u")] ∧
      confirmedAs [uncleCycle] [pendingRow 3 30 1, pendingRow 4 30 2] =
        [(.confirmed, some "uncle", none), (.confirmed, some "block", some "30")] := by
  decide +kernel

/-- The node of a run in which the pool has mined the block at height 30. -/
def ownNode : Node where
  enoughPeers := true
  latest _ := some 60
  blockAt _ := some (chainBlock "30" "0xaa" [])
  current _ height := if height = 30 then some (chainBlock "30" "0xaa" []) else none
  uncleAt _ _ _ := none
  receipts _ _ := .ok []

def ownRows : Database where
  blocks := [pendingRow 3 30 1, pendingRow 4 30 2]

/-- The second of two rows at the height of the block is confirmed, and has a reason. -/
theorem confirmed_rows_ownNode :
    ∃ reason, Confirms .base PPLNSPaymentScheme.updateBalances ethPool mainConfig []
      ⟨.none, 0, ownNode⟩ ownRows 4 reason := by
  have hreports : ∀ cycle ∈ [EthereumCycle.mk .none 0 ownNode],
      Reports (fun _ => 30) cycle.node := by
    intro cycle hcycle
    obtain rfl := List.mem_singleton.mp hcycle
    refine ⟨fun id height block hblock => ?_, fun _ _ _ _ _ _ huncle => by contradiction⟩
    by_contra hne
    have hnone : ownNode.current id height = none := if_neg (Ne.symm hne)
    rw [hnone] at hblock
    contradiction
  have hstatus : (4, BlockStatus.confirmed) ∈ (runCycles .base PPLNSPaymentScheme.updateBalances
      ethPool mainConfig [⟨.none, 0, ownNode⟩] ownRows).blocks.map fun row =>
        (row.id, row.status) := by
    decide +kernel
  obtain ⟨row', hrow', heq⟩ := List.mem_map.mp hstatus
  obtain ⟨hid, hconfirmed⟩ := Prod.mk.inj heq
  exact (@confirmed_rows .base _ ethPool mainConfig settlesOnly_PPLNS (fun _ => 30) _ hreports
    ownRows (by decide)).1 [] _ [] rfl (pendingRow 4 30 2) (by decide) rfl row' hrow' hid hconfirmed

end doublePayments

end EthereumPayoutHandler

end Miningcore
