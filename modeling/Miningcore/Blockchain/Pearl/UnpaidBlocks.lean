import Miningcore.Blockchain.Pearl.BlockClassification
import Miningcore.Blockchain.Pearl.PearlJobManager
import Miningcore.Foundation.Registry
import Miningcore.Mining.ShareRecorder

/-!
# Pearl blocks without a reward

A share of a Pearl pool goes from its job through the recorder to a row, and the row through
the payout cycles to its confirmation. None of them sets the reward.

## Implementation notes

A batch is the first shares that were received and are in no batch yet. The rows of
its shares are part of the event, since only schemes read them.
-/

namespace Miningcore.Pearl

open Foundation BlockRepository Mining PayoutManager PearlPayoutHandler

/-- A share as it is recorded. Neither the job nor the manager sets the reward. -/
structure PearlShare where
  share : MinedShare
  miner : String
  created : DateTime
  blockReward : ℚ := 0
deriving DecidableEq

def PearlShare.isBlockCandidate (share : PearlShare) : Bool := share.share.isBlockCandidate

/-- The row that a candidate is mapped to. -/
def PearlShare.toBlock (poolId : String) (id : ℕ) (share : PearlShare) : Block where
  id
  poolId
  blockHeight := share.share.blockHeight
  status := .pending
  transactionConfirmationData := share.share.transactionConfirmationData.getD ""
  miner := share.miner
  reward := share.blockReward
  hash := share.share.blockHash
  created := share.created

/-- A pool with its payments, and what the database does in the attempts of the recorder. -/
structure PaidPool (π : Type*) where
  pearl : PearlPool π
  config : PoolConfig
  scheme : PayoutScheme
  attempts : ℕ → Attempt

structure PaidState where
  pool : PoolState
  received : List PearlShare := []
  recorder : ShareRecorder PearlShare := ⟨0, 0, .initial, ⟨[], [], []⟩, []⟩
  lastBlockId : ℕ := 0
  db : Database := {}

inductive PaidEvent where
  | stratum (event : Event) (miner : String) (created : DateTime)
  | record (count wait : ℕ) (fileFailure : Option ℕ) (shareRows : List Share)
  | payouts (ct : CancellationToken) (now : ℕ)
      (wallet : Block → Except Exception (RpcResponse PearlGetBlockResponse))

section steps

variable {π : Type*} (paid : PaidPool π) (state : PaidState)

/-- The share of an event is handed to the recorder. -/
def receive (event : Event) (miner : String) (created : DateTime) : PaidState :=
  { state with
    pool := state.pool.step paid.pearl event
    received := state.received ++
      match event with
      | .submit connectionId submission accepted =>
          match state.pool.submitShare paid.pearl connectionId submission accepted with
          | .ok share => [{ share, miner, created }]
          | .error _ => []
      | _ => [] }

/-- The rows of a batch are inserted if its transaction is committed. -/
def recordBatch (count wait : ℕ) (fileFailure : Option ℕ) (shareRows : List Share) : PaidState :=
  let recorder := record PearlShare.isBlockCandidate paid.attempts state.recorder
    { wait, shares := state.received.take count, fileFailure }
  let inserted := recorder.tables.blocks.drop state.recorder.tables.blocks.length
  { state with
    received := state.received.drop count
    recorder
    lastBlockId := state.lastBlockId + inserted.length
    db := { state.db with
      shares := if recorder.tables.transactions.length =
          state.recorder.tables.transactions.length then state.db.shares
        else state.db.shares ++ shareRows
      blocks := state.db.blocks ++
        inserted.mapIdx fun i share => share.toBlock paid.config.id (state.lastBlockId + i + 1) } }

def PaidState.step : PaidEvent → PaidState
  | .stratum event miner created => receive paid state event miner created
  | .record count wait fileFailure shareRows =>
      recordBatch paid state count wait fileFailure shareRows
  | .payouts ct now wallet =>
      { state with
        db := (updatePoolBalances .base paid.scheme paid.config ct now
          (PearlPayoutHandler.classifyBlocks wallet) state.db).1 }

end steps

section rewards

variable {π : Type*} (paid : PaidPool π)

/-- The rows of the pool. -/
def rows (state : PaidState) : List Block :=
  state.db.blocks.filter fun row => row.poolId = paid.config.id

/-- Every confirmed row has the amount that its coinbase pays, which is positive. -/
def CarriesRewards (coinbaseValue : Block → ℚ) (state : PaidState) : Prop :=
  ∀ row ∈ rows paid state, row.status = .confirmed → row.reward = coinbaseValue row ∧ 0 < row.reward

/-- The wallet shows the block with enough confirmations. -/
def Matures (answer : Except Exception (RpcResponse PearlGetBlockResponse)) : Prop :=
  ∃ response, answer = .ok ⟨some response, none⟩ ∧ minConfirmations ≤ response.confirmations

/-- No pending row of the pool matures in a payout cycle. -/
def NoneMatures (state : PaidState) (event : PaidEvent) : Prop :=
  ∀ ct now wallet, event = .payouts ct now wallet →
    ∀ row ∈ getPendingBlocksForPool state.db.blocks paid.config.id, ¬ Matures (wallet row)

/-- A pool that has no rows yet. -/
structure Starts (state : PaidState) : Prop where
  rows : rows paid state = []
  received : state.received = []

end rewards

/-! ## What becomes of the rewards -/

section runs

variable {π : Type*} {paid : PaidPool π} {state : PaidState}

/-- No row of the pool has a reward, and none is to come. -/
structure Unrewarded (paid : PaidPool π) (state : PaidState) : Prop where
  received : ∀ share ∈ state.received, share.blockReward = 0
  rows : ∀ row ∈ state.db.blocks, row.poolId = paid.config.id → row.reward = 0

theorem unrewarded_of_starts (h : Starts paid state) : Unrewarded paid state where
  received share hshare := by
    rw [h.received] at hshare
    cases hshare
  rows row hrow hpool := by
    have hmem : row ∈ Pearl.rows paid state := List.mem_filter.mpr ⟨hrow, decide_eq_true hpool⟩
    rw [h.rows] at hmem
    cases hmem

/-- What a classification returns is a row of the pool with another status or progress. -/
theorem classifyBlocks_mem {wallet : Block → Except Exception (RpcResponse PearlGetBlockResponse)}
    {rows results : List Block} (h : PearlPayoutHandler.classifyBlocks wallet rows = .ok results)
    {block : Block} (hblock : block ∈ results) :
    ∃ row ∈ rows, block.reward = row.reward ∧
      (block.status = .confirmed → Matures (wallet row)) := by
  obtain ⟨row, hrow, hresult⟩ := (mem_classifyEach h).mp hblock
  refine ⟨row, hrow, ?_⟩
  dsimp only [classifyBlock] at hresult
  cases hanswer : wallet row with
  | error e =>
      rw [hanswer] at hresult
      cases hresult
  | ok reply =>
      obtain ⟨response, error⟩ := reply
      rw [hanswer] at hresult
      dsimp only at hresult
      split at hresult
      · rename_i response
        obtain rfl := Option.some.inj (Except.ok.inj hresult)
        rw [classifyFound]
        split
        · exact ⟨rfl, fun hconfirmed => by cases hconfirmed⟩
        · split
          · rename_i hmatured
            exact ⟨rfl, fun _ => ⟨response, rfl, hmatured⟩⟩
          · exact ⟨rfl, fun hconfirmed => by cases hconfirmed⟩
      · obtain rfl := Option.some.inj (Except.ok.inj hresult)
        exact ⟨rfl, fun hconfirmed => by cases hconfirmed⟩

/-- The inserted rows are mapped from shares of the batch. -/
theorem inserted_mem {recorder : ShareRecorder PearlShare} {batch : Batch PearlShare}
    {attempts : ℕ → Attempt} {share : PearlShare}
    (h : share ∈ (record PearlShare.isBlockCandidate attempts recorder batch).tables.blocks.drop
      recorder.tables.blocks.length) : share ∈ batch.shares := by
  obtain hwritten | hsame :=
    @written_record _ PearlShare.isBlockCandidate attempts recorder batch
  · rw [hwritten, commit_eq, List.drop_left] at h
    exact List.mem_of_mem_filter h
  · rw [hsame, List.drop_length] at h
    cases h

theorem mem_mapIdx_toBlock {shares : List PearlShare} {poolId : String} {lastId : ℕ} {row : Block}
    (h : row ∈ shares.mapIdx fun i share => share.toBlock poolId (lastId + i + 1)) :
    ∃ share ∈ shares, row.reward = share.blockReward ∧ row.status = .pending := by
  obtain ⟨i, hi, rfl⟩ := List.mem_mapIdx.mp h
  exact ⟨shares[i], List.getElem_mem hi, rfl, rfl⟩

/-- A step preserves what holds of pending rows without a reward, and of the rows that the
classification returns. -/
theorem forall_rows_step (hscheme : SettlesOnly paid.scheme) (hunrewarded : Unrewarded paid state)
    {holds : Block → Prop} (event : PaidEvent)
    (hinserted : ∀ row, row.reward = 0 → row.status = .pending → holds row)
    (hwritten : ∀ ct now wallet, event = .payouts ct now wallet →
      ∀ results, PearlPayoutHandler.classifyBlocks wallet
          (getPendingBlocksForPool state.db.blocks paid.config.id) =
        .ok results → ∀ block ∈ results, ∀ db row, holds row →
          holds (writtenRow (withEfforts .base paid.config block db) row))
    (h : ∀ row ∈ state.db.blocks, holds row) :
    ∀ row ∈ (state.step paid event).db.blocks, holds row := by
  cases event with
  | stratum event miner created => exact h
  | record count wait fileFailure shareRows =>
      intro row hrow
      obtain hold | hnew := List.mem_append.mp hrow
      · exact h row hold
      · obtain ⟨share, hshare, hreward, hstatus⟩ := mem_mapIdx_toBlock hnew
        have hreceived := hunrewarded.received share (List.mem_of_mem_take (inserted_mem hshare))
        exact hinserted row (hreward.trans hreceived) hstatus
  | payouts ct now wallet =>
      exact forall_blocks_updatePoolBalances hscheme (hwritten ct now wallet rfl) now h

/-- What is received from a miner has no reward. -/
theorem blockReward_receive {event : Event} {miner : String} {created : DateTime}
    (h : ∀ share ∈ state.received, share.blockReward = 0) :
    ∀ share ∈ (receive paid state event miner created).received, share.blockReward = 0 := by
  intro share hshare
  obtain hold | hnew := List.mem_append.mp hshare
  · exact h share hold
  · cases event with
    | submit connectionId submission accepted =>
        dsimp only at hnew
        split at hnew
        · obtain rfl := List.mem_singleton.mp hnew
          rfl
        · cases hnew
    | updateJob template => cases hnew
    | createWorkerJob connectionId => cases hnew
    | setDifficulty connectionId difficulty => cases hnew

/-- No step gives a row a reward. -/
theorem unrewarded_step (hscheme : SettlesOnly paid.scheme) (event : PaidEvent)
    (h : Unrewarded paid state) : Unrewarded paid (state.step paid event) where
  received := by
    cases event with
    | stratum event miner created => exact blockReward_receive h.received
    | record count wait fileFailure shareRows =>
        exact fun share hshare => h.received share (List.mem_of_mem_drop hshare)
    | payouts ct now wallet => exact h.received
  rows := by
    refine @forall_rows_step _ paid state hscheme h
      (fun row => row.poolId = paid.config.id → row.reward = 0) event ?_ ?_ h.rows
    · exact fun row hreward _ _ => hreward
    · intro ct now wallet _ results hresults block hblock db row hrow
      obtain ⟨before, hbefore, hreward, -⟩ := classifyBlocks_mem hresults hblock
      obtain ⟨hmem, hpool, -⟩ := mem_pending_iff.mp hbefore
      rw [writtenRow]
      split
      · exact fun _ => hreward.trans (h.rows before hmem hpool)
      · exact hrow

/-- A step in which nothing matures confirms no row of the pool. -/
theorem not_confirmed_step (hscheme : SettlesOnly paid.scheme) (event : PaidEvent)
    (hunrewarded : Unrewarded paid state) (hnone : NoneMatures paid state event)
    (h : ∀ row ∈ state.db.blocks, row.poolId = paid.config.id → row.status ≠ .confirmed) :
    ∀ row ∈ (state.step paid event).db.blocks,
      row.poolId = paid.config.id → row.status ≠ .confirmed := by
  refine @forall_rows_step _ paid state hscheme hunrewarded
    (fun row => row.poolId = paid.config.id → row.status ≠ .confirmed) event ?_ ?_ h
  · intro row _ hpending _ hconfirmed
    rw [hpending] at hconfirmed
    cases hconfirmed
  · intro ct now wallet hevent results hresults block hblock db row hrow
    obtain ⟨before, hbefore, -, hmatures⟩ := classifyBlocks_mem hresults hblock
    rw [writtenRow]
    split
    · exact fun _ hconfirmed => hnone ct now wallet hevent before hbefore (hmatures hconfirmed)
    · exact hrow

/-- Without a reward the confirmed rows are the ones that do not carry it. -/
theorem carriesRewards_iff_of_unrewarded (coinbaseValue : Block → ℚ)
    (h : Unrewarded paid state) :
    CarriesRewards paid coinbaseValue state ↔ ∀ row ∈ rows paid state, row.status ≠ .confirmed := by
  constructor
  · intro hcarries row hrow hconfirmed
    obtain ⟨hmem, hpool⟩ := List.mem_filter.mp hrow
    have hzero := h.rows row hmem (of_decide_eq_true hpool)
    exact absurd (hcarries row hrow hconfirmed).2 hzero.not_gt
  · exact fun hnone row hrow hconfirmed => absurd hconfirmed (hnone row hrow)

theorem unrewarded_run (hscheme : SettlesOnly paid.scheme) (h : Unrewarded paid state)
    (events : List PaidEvent) : Unrewarded paid (events.foldl (PaidState.step paid) state) :=
  @foldl_invariant_of_met _ _ (PaidState.step paid) (Unrewarded paid) (fun _ _ => True)
    (fun _ event _ => unrewarded_step hscheme event) state h events fun _ _ => trivial

theorem not_confirmed_run (hscheme : SettlesOnly paid.scheme) (hstarts : Starts paid state)
    (events : List PaidEvent)
    (hnone : ∀ p ∈ met (PaidState.step paid) state events, NoneMatures paid p.1 p.2) :
    ∀ row ∈ rows paid (events.foldl (PaidState.step paid) state), row.status ≠ .confirmed := by
  have hstart : ∀ row ∈ state.db.blocks, row.poolId = paid.config.id →
      row.status ≠ .confirmed := by
    intro row hrow hpool
    have hmem : row ∈ rows paid state := List.mem_filter.mpr ⟨hrow, decide_eq_true hpool⟩
    rw [hstarts.rows] at hmem
    cases hmem
  have hrun := @foldl_invariant_of_met _ _ (PaidState.step paid)
    (fun state => Unrewarded paid state ∧
      ∀ row ∈ state.db.blocks, row.poolId = paid.config.id → row.status ≠ .confirmed)
    (NoneMatures paid)
    (fun _ event hmatures h => ⟨unrewarded_step hscheme event h.1,
      not_confirmed_step hscheme event h.1 hmatures h.2⟩)
    state ⟨unrewarded_of_starts hstarts, hstart⟩ events hnone
  intro row hrow
  obtain ⟨hmem, hpool⟩ := List.mem_filter.mp hrow
  exact hrun.2 row hmem (of_decide_eq_true hpool)

/-- Rows carry their rewards as long as none is confirmed, and none is while no block matures. -/
theorem carriesRewards_run (hscheme : SettlesOnly paid.scheme) (coinbaseValue : Block → ℚ)
    (hstarts : Starts paid state) (events : List PaidEvent) :
    (CarriesRewards paid coinbaseValue (events.foldl (PaidState.step paid) state) ↔
      ∀ row ∈ rows paid (events.foldl (PaidState.step paid) state), row.status ≠ .confirmed) ∧
    ((∀ p ∈ met (PaidState.step paid) state events, NoneMatures paid p.1 p.2) →
      CarriesRewards paid coinbaseValue (events.foldl (PaidState.step paid) state)) := by
  have hunrewarded := unrewarded_run hscheme (unrewarded_of_starts hstarts) events
  have hiff := carriesRewards_iff_of_unrewarded coinbaseValue hunrewarded
  exact ⟨hiff, fun hnone => hiff.mpr (not_confirmed_run hscheme hstarts events hnone)⟩

end runs

/-! ## A block that is found and confirmed -/

namespace FoundBlock

def packages : PearlPackages Unit where
  fromGetBlockTemplate _ := .ok { incompleteHeader := [], requiredCertVersion := 1, target := 1 }
  fromBase64 _ := .ok ()
  verifyPlainProof _ _ _ _ := (true, "")
  generateBlock _ _ := .ok { serialize := [1], headerHash := [2] }

def paid : PaidPool Unit where
  pearl := { packages, doubleToString := fun _ => "" }
  config := { id := "pearl", address := "pool" }
  scheme := PPLNSPaymentScheme.updateBalances
  attempts _ := ⟨1, none⟩

def start : PaidState where
  pool := { contexts := fun _ => { difficulty := 1 } }

/-- A miner finds a block, which is recorded. -/
def found : List PaidEvent :=
  [.stratum (.updateJob { height := 1, previousBlockHash := [], networkDifficulty := 1 }) "" 0,
    .stratum (.createWorkerJob "A") "" 1,
    .stratum (.submit "A" (.array [.scalar "00000001".toList, .scalar "AQ==".toList]) true)
      "miner" 2,
    .record 1 0 none []]

/-- A payout cycle comes too early for the block. -/
def immature : PaidEvent := .payouts .none 3 fun _ => .ok ⟨some ⟨99⟩, none⟩

def confirmed : PaidEvent := .payouts .none 3 fun _ => .ok ⟨some ⟨100⟩, none⟩

theorem starts : Starts paid start := ⟨rfl, rfl⟩

end FoundBlock

open FoundBlock

theorem not_matures_immature : ¬ Matures (.ok ⟨some ⟨99⟩, none⟩) := by
  rintro ⟨response, hanswer, hconfirmations⟩
  cases hanswer
  exact absurd hconfirmations (by decide)

/-- The row of the block is pending after the payout cycle. -/
theorem carriesRewards_found :
    ((rows paid ((found ++ [immature]).foldl (PaidState.step paid) start)).map Block.status =
        [.pending]) ∧
      CarriesRewards paid (fun _ => 50)
        ((found ++ [immature]).foldl (PaidState.step paid) start) := by
  refine ⟨by decide +kernel,
    (carriesRewards_run settlesOnly_PPLNS (fun _ => 50) starts (found ++ [immature])).2 ?_⟩
  intro p hp ct now wallet hevent
  simp only [found, List.cons_append, List.nil_append, met, List.mem_cons, List.not_mem_nil,
    or_false] at hp
  obtain rfl | rfl | rfl | rfl | rfl := hp <;> cases hevent
  exact fun _ _ => not_matures_immature

/-- The confirmed row has nothing to distribute. -/
theorem not_carriesRewards_confirmed :
    ¬ CarriesRewards paid (fun _ => 50)
      ((found ++ [confirmed]).foldl (PaidState.step paid) start) := by
  have hrow : ((rows paid ((found ++ [confirmed]).foldl (PaidState.step paid) start)).map
      fun row => (row.status, row.reward)) = [(.confirmed, 0)] := by
    decide +kernel
  have hmem : (BlockStatus.confirmed, (0 : ℚ)) ∈
      (rows paid ((found ++ [confirmed]).foldl (PaidState.step paid) start)).map
        fun row => (row.status, row.reward) := by
    rw [hrow]
    exact List.mem_singleton_self _
  obtain ⟨row, hrow, heq⟩ := List.mem_map.mp hmem
  obtain ⟨hstatus, hreward⟩ := Prod.mk.inj heq
  intro hcarries
  exact absurd (hcarries row hrow hstatus).2 hreward.not_gt

end Miningcore.Pearl
