import Miningcore.Payments.PayoutCycles
import Miningcore.Payments.PaymentSchemes.PROPRewards

/-!
# The order of PPLNS settlements

Settling a block deletes the shares before its cutoff. A block that is settled
later, though it was created earlier, may miss them.
-/

namespace Miningcore

open Foundation WindowCalculation PayoutHandlerBase PayoutManager

section Order

variable {handler : PayoutHandler} {pool : PoolConfig}

/-- A transaction credits what it would credit as the first one of the run. -/
def CreditedAsFirst (handler : PayoutHandler) (pool : PoolConfig) (db : Database)
    (commit : Commit) : Prop :=
  ∃ result credits,
    processBlock handler PPLNSPaymentScheme.updateBalances pool .none 0 commit.block db =
      .ok result ∧
    commit.after.credits = commit.before.credits ++ credits ∧
    result.1.credits = db.credits ++ credits

/-- The window of a block reaches behind the share that fills the window of another one: the shares
before that share's creation may not be missing. -/
def Disturbs (handler : PayoutHandler) (pool : PoolConfig) (shares : List Share)
    (other block : Block) : Prop :=
  ∃ cutoff, windowCutoff handler (windowFactor pool) 0 (PPLNSRows pool other shares) =
      some cutoff ∧
    Truncates handler (windowFactor pool) (blockRewardRemaining handler pool block)
      ((PPLNSRows pool block shares).filter fun share => cutoff ≤ share.created)
      ((PPLNSRows pool block shares).filter fun share => share.created < cutoff)

theorem descending_PPLNSRows (pool : PoolConfig) (block : Block) (shares : List Share) :
    Descending Share.created (PPLNSRows pool block shares) :=
  descending_flatten_blockPages shares pool.id block PPLNSPaymentScheme.pageSize_pos

/-- Without the shares before a cutoff, a settlement reads the first stretch of its rows. -/
theorem PPLNSRows_deleteSharesBefore (pool : PoolConfig) (block : Block) (shares : List Share)
    (cutoff : DateTime) :
    PPLNSRows pool block (ShareRepository.deleteSharesBefore shares pool.id cutoff) =
      (PPLNSRows pool block shares).filter fun share => cutoff ≤ share.created :=
  flatten_sharePages_deleteSharesBefore shares pool.id block.created cutoff true
    PPLNSPaymentScheme.pageSize_pos

/-- A settlement without the shares before a cutoff credits the same, exactly when it may miss
them. -/
theorem credits_deleteSharesBefore_iff (block : Block) (shares : List Share) (cutoff : DateTime)
    (hnone : thrown handler (windowFactor pool) (blockRewardRemaining handler pool block) 0
      (PPLNSRows pool block (ShareRepository.deleteSharesBefore shares pool.id cutoff)) = none) :
    (thrown handler (windowFactor pool) (blockRewardRemaining handler pool block) 0
          (PPLNSRows pool block shares) = none ∧
        PPLNSCredits handler pool block (PPLNSRows pool block shares) =
          PPLNSCredits handler pool block
            (PPLNSRows pool block (ShareRepository.deleteSharesBefore shares pool.id cutoff))) ↔
      ¬Truncates handler (windowFactor pool) (blockRewardRemaining handler pool block)
        ((PPLNSRows pool block shares).filter fun share => cutoff ≤ share.created)
        ((PPLNSRows pool block shares).filter fun share => share.created < cutoff) := by
  have hrows := (descending_PPLNSRows pool block shares).filter_append_filter cutoff
  have hstart : ∀ e ∈ (PPLNSPaymentScheme.start
      (blockRewardRemaining handler pool block)).rewards.entries, (0 : ℚ) ≤ e.2 := by
    intro e he
    cases he
  rw [PPLNSRows_deleteSharesBefore] at hnone ⊢
  rw [← credits_fill_append_iff rfl hstart hnone, hrows, PPLNSCredits, PPLNSCredits,
    List.append_cancel_left_eq]

variable {db : Database} {commit : Commit}

/-- The credits of a committed settlement against those of the same settlement on other shares. -/
theorem creditedAsFirst_iff_credits {now n : Nat} (hstatus : commit.block.status = .confirmed)
    (hcommit : processBlock handler PPLNSPaymentScheme.updateBalances pool .none now commit.block
      commit.before = .ok (commit.after, n)) :
    CreditedAsFirst handler pool db commit ↔
      thrown handler (windowFactor pool) (blockRewardRemaining handler pool commit.block) 0
          (PPLNSRows pool commit.block db.shares) = none ∧
        PPLNSCredits handler pool commit.block (PPLNSRows pool commit.block db.shares) =
          PPLNSCredits handler pool commit.block
            (PPLNSRows pool commit.block commit.before.shares) := by
  have hcredits : commit.after.credits = _ := (processBlock_PPLNS_ok hstatus hcommit).1
  constructor
  · rintro ⟨result, credits, hok, hafter, hfirst⟩
    refine ⟨(exists_processBlock_PPLNS_iff hstatus).mp ⟨result, hok⟩, ?_⟩
    rw [(processBlock_PPLNS_ok hstatus hok).1, List.append_cancel_left_eq] at hfirst
    rw [hcredits, List.append_cancel_left_eq] at hafter
    exact hfirst.trans hafter.symm
  · rintro ⟨hnone, heq⟩
    obtain ⟨result, hok⟩ := (exists_processBlock_PPLNS_iff hstatus).mpr hnone
    refine ⟨result, _, hok, hcredits, ?_⟩
    rw [(processBlock_PPLNS_ok hstatus hok).1, heq]

/-- The cutoffs of the blocks a run has confirmed, over the shares the run starts with. -/
def settledCutoffs (handler : PayoutHandler) (pool : PoolConfig) (shares : List Share)
    (log : List Commit) : Set DateTime :=
  { cutoff | ∃ earlier ∈ log, earlier.block.status = .confirmed ∧
    windowCutoff handler (windowFactor pool) 0 (PPLNSRows pool earlier.block shares) =
      some cutoff }

theorem settledCutoffs_cons (shares : List Share) (c : Commit) (log : List Commit) :
    settledCutoffs handler pool shares (c :: log) =
      settledCutoffs handler pool shares [c] ∪ settledCutoffs handler pool shares log := by
  ext cutoff
  simp [settledCutoffs]

/-- Deleting shares takes the cutoffs below the deletion out of the run. -/
theorem settledCutoffs_deleteSharesBefore (shares : List Share) (bound : DateTime)
    (log : List Commit) :
    settledCutoffs handler pool (ShareRepository.deleteSharesBefore shares pool.id bound) log =
      { cutoff ∈ settledCutoffs handler pool shares log | bound ≤ cutoff } := by
  have hcutoff : ∀ block,
      windowCutoff handler (windowFactor pool) 0
          (PPLNSRows pool block (ShareRepository.deleteSharesBefore shares pool.id bound)) =
        (windowCutoff handler (windowFactor pool) 0 (PPLNSRows pool block shares)).filter
          fun cutoff => bound ≤ cutoff := by
    intro block
    have hrows := (descending_PPLNSRows pool block shares).filter_append_filter bound
    have habove : ∀ share ∈ (PPLNSRows pool block shares).filter
        (fun share => bound ≤ share.created), bound ≤ share.created := by
      simp
    have hbelow : ∀ share ∈ (PPLNSRows pool block shares).filter
        (fun share => share.created < bound), share.created < bound := by
      simp
    rw [PPLNSRows_deleteSharesBefore, windowCutoff_append habove hbelow, hrows]
  ext cutoff
  simp only [settledCutoffs, hcutoff, Option.filter_eq_some_iff, decide_eq_true_eq]
  constructor
  · rintro ⟨earlier, hmem, hconfirmed, hfull, hle⟩
    exact ⟨⟨earlier, hmem, hconfirmed, hfull⟩, hle⟩
  · rintro ⟨⟨earlier, hmem, hconfirmed, hfull⟩, hle⟩
    exact ⟨earlier, hmem, hconfirmed, hfull, hle⟩

theorem deleteSharesBefore_deleteSharesBefore (shares : List Share) (poolId : String)
    {bound cutoff : DateTime} (h : bound ≤ cutoff) :
    ShareRepository.deleteSharesBefore (ShareRepository.deleteSharesBefore shares poolId bound)
        poolId cutoff =
      ShareRepository.deleteSharesBefore shares poolId cutoff := by
  rw [ShareRepository.deleteSharesBefore, ShareRepository.deleteSharesBefore,
    ShareRepository.deleteSharesBefore, List.filter_filter]
  apply List.filter_congr
  intro share _
  simp only [ShareRepository.isBefore]
  grind

/-- What one transaction of a run deletes. -/
theorem shares_processBlock {now n : Nat} {block : Block} {db db' : Database}
    (h : processBlock handler PPLNSPaymentScheme.updateBalances pool .none now block db =
      .ok (db', n)) :
    (settledCutoffs handler pool db.shares [⟨db, block, db'⟩] = ∅ ∧ db'.shares = db.shares) ∨
      ∃ cutoff, settledCutoffs handler pool db.shares [⟨db, block, db'⟩] = {cutoff} ∧
        db'.shares = ShareRepository.deleteSharesBefore db.shares pool.id cutoff := by
  by_cases hstatus : block.status = .confirmed
  · have hshares := (processBlock_PPLNS_ok hstatus h).2
    cases hcutoff : windowCutoff handler (windowFactor pool) 0 (PPLNSRows pool block db.shares) with
    | none => exact Or.inl ⟨by simp [settledCutoffs, hcutoff], by rwa [hcutoff] at hshares⟩
    | some cutoff =>
        refine Or.inr ⟨cutoff, ?_, by rwa [hcutoff] at hshares⟩
        ext other
        simp [settledCutoffs, hcutoff, hstatus, eq_comm]
  · have hdb : db' = _ := processBlock_eq_ok_of_ne hstatus h
    exact Or.inl ⟨by simp [settledCutoffs, hstatus], by rw [hdb]⟩

/-- A run deletes the shares before the greatest cutoff of its confirmed blocks. -/
theorem Run.shares_eq {log : List Commit}
    (h : Run handler PPLNSPaymentScheme.updateBalances pool db log) :
    (settledCutoffs handler pool db.shares log = ∅ ∧ (finalDatabase db log).shares = db.shares) ∨
      ∃ cutoff, IsGreatest (settledCutoffs handler pool db.shares log) cutoff ∧
        (finalDatabase db log).shares =
          ShareRepository.deleteSharesBefore db.shares pool.id cutoff := by
  induction h with
  | nil db => exact Or.inl ⟨by simp [settledCutoffs], rfl⟩
  | @cons db block db' log _ commit _ ih =>
      obtain ⟨now, n, hblock⟩ := commit
      rw [settledCutoffs_cons, finalDatabase]
      rcases shares_processBlock hblock with ⟨hnone, hshares⟩ | ⟨bound, hone, hshares⟩
      · rw [hshares] at ih
        rw [hnone, Set.empty_union]
        exact ih
      · rw [hshares, settledCutoffs_deleteSharesBefore] at ih
        rw [hone]
        right
        rcases ih with ⟨hempty, hfinal⟩ | ⟨cutoff, ⟨⟨hmem, hle⟩, hgreatest⟩, hfinal⟩
        · refine ⟨bound, ⟨Or.inl rfl, ?_⟩, hfinal⟩
          rintro other (rfl | hother)
          · exact le_rfl
          · by_contra hnot
            have hmem : other ∈ { cutoff ∈ settledCutoffs handler pool db.shares log |
                bound ≤ cutoff } := ⟨hother, (not_le.mp hnot).le⟩
            rw [hempty] at hmem
            exact hmem
        · refine ⟨cutoff, ⟨Or.inr hmem, ?_⟩, ?_⟩
          · rintro other (rfl | hother)
            · exact hle
            · rcases le_total bound other with hbound | hbound
              · exact hgreatest ⟨hother, hbound⟩
              · exact hbound.trans hle
          · rw [hfinal, deleteSharesBefore_deleteSharesBefore _ _ hle]

/-- The later the cutoff, the more a settlement may miss. -/
theorem WindowCalculation.Truncates.filter_mono {window pot : ℚ} {rows : List Share}
    (hrows : Descending Share.created rows) {bound cutoff : DateTime} (hle : bound ≤ cutoff)
    (h : Truncates handler window pot (rows.filter fun share => bound ≤ share.created)
      (rows.filter fun share => share.created < bound)) :
    Truncates handler window pot (rows.filter fun share => cutoff ≤ share.created)
      (rows.filter fun share => share.created < cutoff) := by
  obtain ⟨mid, habove, hbelow⟩ := hrows.exists_between hle
  rw [habove] at h
  rw [hbelow]
  exact h.append_left

/-- The settlement of a block in a run credits what it would credit as the first one, unless a
block settled before disturbs it. -/
theorem Run.creditedAsFirst_iff {pre post : List Commit}
    (h : Run handler PPLNSPaymentScheme.updateBalances pool db (pre ++ commit :: post))
    (hstatus : commit.block.status = .confirmed) :
    CreditedAsFirst handler pool db commit ↔
      ¬∃ earlier ∈ pre, earlier.block.status = .confirmed ∧
        Disturbs handler pool db.shares earlier.block commit.block := by
  obtain ⟨now, n, hbefore, hcommit⟩ : ∃ now n, commit.before = finalDatabase db pre ∧
      processBlock handler PPLNSPaymentScheme.updateBalances pool .none now commit.block
        commit.before = .ok (commit.after, n) := by
    cases h.drop with
    | cons _ hok _ =>
        obtain ⟨now, n, hok⟩ := hok
        exact ⟨now, n, rfl, hok⟩
  have hnone := (exists_processBlock_PPLNS_iff hstatus).mp ⟨_, hcommit⟩
  rw [creditedAsFirst_iff_credits hstatus hcommit]
  rw [hbefore] at hnone ⊢
  have hdisturbed : (∃ earlier ∈ pre, earlier.block.status = .confirmed ∧
      Disturbs handler pool db.shares earlier.block commit.block) ↔
      ∃ cutoff ∈ settledCutoffs handler pool db.shares pre,
        Truncates handler (windowFactor pool) (blockRewardRemaining handler pool commit.block)
          ((PPLNSRows pool commit.block db.shares).filter fun share => cutoff ≤ share.created)
          ((PPLNSRows pool commit.block db.shares).filter fun share => share.created < cutoff) := by
    constructor
    · rintro ⟨earlier, hmem, hconfirmed, cutoff, hcutoff, htrunc⟩
      exact ⟨cutoff, ⟨earlier, hmem, hconfirmed, hcutoff⟩, htrunc⟩
    · rintro ⟨cutoff, ⟨earlier, hmem, hconfirmed, hcutoff⟩, htrunc⟩
      exact ⟨earlier, hmem, hconfirmed, cutoff, hcutoff, htrunc⟩
  rw [hdisturbed]
  rcases h.take.shares_eq with ⟨hempty, hshares⟩ | ⟨cutoff, ⟨hmem, hgreatest⟩, hshares⟩
  · rw [hshares] at hnone ⊢
    exact iff_of_true ⟨hnone, rfl⟩ (by simp [hempty])
  · rw [hshares] at hnone ⊢
    rw [credits_deleteSharesBefore_iff commit.block db.shares cutoff hnone, not_iff_not]
    constructor
    · exact fun htrunc => ⟨cutoff, hmem, htrunc⟩
    · rintro ⟨other, hother, htrunc⟩
      exact htrunc.filter_mono (descending_PPLNSRows _ _ _) (hgreatest hother)

end Order

/-! ## Decided once -/

theorem settlesOnly_PPLNSBF : SettlesOnly PPLNSBFPaymentScheme.updateBalances := by
  intro handler pool ct now block blockReward db result h
  obtain ⟨st, _, _, hsettled⟩ := PPLNSBFPaymentScheme.updateBalances_ok h
  exact ⟨st.calculation, hsettled⟩

theorem settlesOnly_PROP : SettlesOnly PROPPaymentScheme.updateBalances := by
  intro handler pool ct now block blockReward db result h
  obtain ⟨_, _, calculation, _, _, hsettled⟩ := PROPPaymentScheme.updateBalances_ok h
  exact ⟨calculation, hsettled⟩

/-- The log of a run leads to what its cycles leave, and no block that is confirmed or orphaned in
it is processed again. -/
theorem runCommits_decidesOnce (handler : PayoutHandler) {scheme : PayoutScheme}
    (hscheme : scheme = PPLNSPaymentScheme.updateBalances ∨
      scheme = PPLNSBFPaymentScheme.updateBalances ∨ scheme = PROPPaymentScheme.updateBalances)
    (pool : PoolConfig) (cycles : List Cycle) {db : Database}
    (hids : (db.blocks.map Block.id).Nodup) :
    databaseAfter handler scheme pool cycles db =
        finalDatabase db (runCommits handler scheme pool cycles db) ∧
      ∀ pre commit post, runCommits handler scheme pool cycles db = pre ++ commit :: post →
        commit.block.status ≠ .pending → ∀ later ∈ post, later.block.id ≠ commit.block.id := by
  have hsettles : SettlesOnly scheme := by
    obtain rfl | rfl | rfl := hscheme
    · exact settlesOnly_PPLNS
    · exact settlesOnly_PPLNSBF
    · exact settlesOnly_PROP
  refine ⟨databaseAfter_eq handler scheme pool cycles db, ?_⟩
  intro pre commit post hlog hstatus
  have hrun : Run handler scheme pool db (pre ++ commit :: post) :=
    hlog ▸ run_runCommits hsettles cycles hids
  exact hrun.decided_once hsettles hstatus

/-! ## Two blocks with overlapping windows -/

namespace OverlappingWindows

def pool : PoolConfig :=
  { id := "pool", address := "wallet", payoutSchemeConfig := some { factor := 1 } }

/-- The share of the window of the older block is before the share of the newer block's window. -/
def db : Database where
  shares := [.unit 1 "a" 1, .unit 2 "b" 3]
  blocks :=
    [{ id := 1, poolId := "pool", blockHeight := 1, miner := "a", reward := 10, created := 2 },
      { id := 2, poolId := "pool", blockHeight := 2, miner := "b", reward := 10, created := 3 }]

def unlocked : Verdict := ⟨.confirmed, 1, 10⟩

/-- Only the newer block is unlocked. -/
def newerFirst : Cycle := ⟨0, fun block => if block.id = 2 then some unlocked else none⟩

/-- All pending blocks are unlocked. -/
def allUnlocked : Cycle := ⟨0, fun _ => some unlocked⟩

def older : Block := unlocked.apply
  { id := 1, poolId := "pool", blockHeight := 1, miner := "a", reward := 10, created := 2 }

def newer : Block := unlocked.apply
  { id := 2, poolId := "pool", blockHeight := 2, miner := "b", reward := 10, created := 3 }

theorem rows_older : PPLNSRows pool older db.shares = [.unit 1 "a" 1] := by
  rw [PPLNSRows, blockPages, sharePages_of_lt (by decide)]
  decide

theorem rows_newer : PPLNSRows pool newer db.shares = [.unit 2 "b" 3, .unit 1 "a" 1] := by
  rw [PPLNSRows, blockPages, sharePages_of_lt (by decide)]
  decide

theorem remaining (block : Block) :
    blockRewardRemaining .base pool block = block.reward := by
  simp [blockRewardRemaining, activeRecipients, pool, PayoutHandler.base]

theorem exists_processBlock (block : Block) (hstatus : block.status = .confirmed)
    (hreward : 0 < block.reward) (now : Nat) (db : Database) :
    ∃ result, processBlock .base PPLNSPaymentScheme.updateBalances pool .none now block db =
      .ok result := by
  rw [exists_processBlock_PPLNS_iff hstatus, remaining]
  exact thrown_eq_none (by norm_num [windowFactor, pool]) hreward 0 _

theorem exists_cycleCommits {cycle : Cycle} {db : Database} {block : Block}
    (hblocks : cycleBlocks pool cycle db = [block]) (hstatus : block.status = .confirmed)
    (hreward : 0 < block.reward) :
    ∃ db', cycleCommits .base PPLNSPaymentScheme.updateBalances pool cycle db =
        [⟨db, block, db'⟩] ∧
      db'.blocks = BlockRepository.updateBlock db.blocks (withEfforts .base pool block db) := by
  obtain ⟨⟨db', n⟩, hok⟩ := exists_processBlock block hstatus hreward cycle.now db
  refine ⟨db', ?_, blocks_processBlock settlesOnly_PPLNS hok⟩
  simp [cycleCommits, hblocks, blockCommits, hok]

/-- The newer block is settled in the first cycle and the older one in the second. -/
theorem exists_runCommits : ∃ db₁ db₂,
    runCommits .base PPLNSPaymentScheme.updateBalances pool [newerFirst, allUnlocked] db =
      [⟨db, newer, db₁⟩, ⟨db₁, older, db₂⟩] := by
  have hfirst : cycleBlocks pool newerFirst db = [newer] := by decide
  obtain ⟨db₁, h₁, hblocks⟩ := exists_cycleCommits hfirst rfl
    (by norm_num [newer, unlocked, Verdict.apply])
  have hsecond : cycleBlocks pool allUnlocked db₁ = [older] := by
    rw [cycleBlocks, hblocks]
    rfl
  obtain ⟨db₂, h₂, _⟩ := exists_cycleCommits hsecond rfl
    (by norm_num [older, unlocked, Verdict.apply])
  refine ⟨db₁, db₂, ?_⟩
  rw [runCommits, runCommits, runCommits, h₁, finalDatabase, finalDatabase, h₂]
  rfl

/-- The newer block is decided in the first cycle, though the second one unlocks all blocks. -/
theorem runCommits_decidesOnce_newer : ∃ db₁ db₂,
    databaseAfter .base PPLNSPaymentScheme.updateBalances pool [newerFirst, allUnlocked] db =
        finalDatabase db [⟨db, newer, db₁⟩, ⟨db₁, older, db₂⟩] ∧
      ∀ later ∈ [(⟨db₁, older, db₂⟩ : Commit)], later.block.id ≠ newer.id := by
  obtain ⟨db₁, db₂, hlog⟩ := exists_runCommits
  have hids : (db.blocks.map Block.id).Nodup := by decide
  obtain ⟨hafter, honce⟩ := runCommits_decidesOnce .base (Or.inl rfl) pool
    [newerFirst, allUnlocked] hids
  have hstatus : newer.status ≠ .pending := by decide
  refine ⟨db₁, db₂, hlog ▸ hafter, ?_⟩
  exact honce [] ⟨db, newer, db₁⟩ [⟨db₁, older, db₂⟩] hlog hstatus

theorem score_unit (rowId : Nat) (miner : String) (created : DateTime) :
    score .base (.unit rowId miner created) = 1 := by
  simp [score, Share.unit, PayoutHandler.base]

/-- The window of the older block reaches a share that is deleted with the newer block. -/
theorem disturbs : Disturbs .base pool db.shares newer older := by
  have hfactor : windowFactor pool = 1 := rfl
  refine ⟨3, ?_, ?_⟩
  · rw [rows_newer, hfactor]
    simp [windowCutoff, score_unit]
    rfl
  · rw [rows_older, remaining, hfactor]
    refine ⟨Or.inl (by decide), ?_⟩
    rw [Owed, if_neg (by decide), if_pos (by decide)]
    exact ⟨.unit 1 "a" 1, by decide, by simp [score_unit]⟩

end OverlappingWindows

end Miningcore
