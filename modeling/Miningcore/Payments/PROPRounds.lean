import Miningcore.Payments.PayoutManager
import Miningcore.Payments.PaymentSchemes.PROPRewards

/-!
# Rounds of the PROP scheme

A run records shares and settles blocks in turn. The deletion that follows a
settlement leaves the shares created at the cutoff itself, which is the creation
time of the newest share that was just paid.
-/

namespace Miningcore

open Foundation PayoutHandlerBase PayoutManager PROPPaymentScheme

/-- Shares are recorded, or a classified block is processed. -/
inductive RoundStep
  | record (shares : List Share)
  | settle (ct : CancellationToken) (now : Nat) (block : Block)

/-- The transaction of a confirmed block that was committed. -/
structure Settlement where
  before : Database
  ct : CancellationToken
  now : Nat
  block : Block

/-- The shares a step adds to the table. -/
def RoundStep.recorded : RoundStep → List Share
  | .record shares => shares
  | .settle _ _ _ => []

section Rounds

variable (handler : PayoutHandler) (pool : PoolConfig)

/-- The committed settlements of a run of steps. -/
def settlements : Database → List RoundStep → List Settlement
  | _, [] => []
  | db, .record shares :: rest => settlements { db with shares := db.shares ++ shares } rest
  | db, .settle ct now block :: rest =>
      match processBlock handler updateBalances pool ct now block db with
      | .error _ => settlements db rest
      | .ok (db', _) =>
          if block.status = .confirmed then ⟨db, ct, now, block⟩ :: settlements db' rest
          else settlements db' rest

/-- The shares the calculation of a settlement has processed and that raise the reward of their
miner. -/
def contributingShares (settlement : Settlement) : List Share :=
  let blockReward := blockRewardRemaining handler pool settlement.block
  match calculateRewards handler pageSize pool settlement.ct (settlement.now + 2)
      settlement.block blockReward settlement.before.shares with
  | .error _ => []
  | .ok (st, _, _) => st.processed.filter fun share => 0 < contribution handler blockReward st share

/-- The shares of the pool up to a block, as the scheme reads them. -/
abbrev PROPRows (block : Block) (shares : List Share) : List Share :=
  (blockPages shares pool.id block pageSize).flatten

/-- A row is among the newest ones read for a block with a reward, and is read again for another
block with a reward. -/
def PaidAgain (earlier later : Settlement) (share : Share) : Prop :=
  0 < blockRewardRemaining handler pool earlier.block ∧
    0 < blockRewardRemaining handler pool later.block ∧
    0 < score handler share ∧
    share ∈ PROPRows pool earlier.block earlier.before.shares ∧
    (∀ other ∈ PROPRows pool earlier.block earlier.before.shares,
      other.created ≤ share.created) ∧
    share ∈ PROPRows pool later.block later.before.shares

/-- No row contributes to the rewards of two settlements. -/
def PaidOnce (log : List Settlement) : Prop :=
  log.Pairwise fun earlier later =>
    ∀ share ∈ contributingShares handler pool earlier,
      share ∉ contributingShares handler pool later

variable {handler pool}

/-! ## One settlement -/

/-- What a committed settlement has processed, and which of it the deletion leaves. -/
structure Paid (handler : PayoutHandler) (pool : PoolConfig) (block : Block)
    (shares shares' : List Share) (share : Share) : Prop where
  reward : 0 < blockRewardRemaining handler pool block
  score : 0 < score handler share
  mem : share ∈ PROPRows pool block shares
  newest : share ∈ shares' → ∀ other ∈ PROPRows pool block shares, other.created ≤ share.created

/-- The last row of a walk down the rows that is still there is one of the newest. -/
theorem created_le_of_survives {block : Block} {shares : List Share} {k : Nat} {share : Share}
    (hmem : share ∈ ((blockPages shares pool.id block pageSize).take k).flatten)
    (hsurvives : share ∈ sharesAfter shares pool.id
      (((blockPages shares pool.id block pageSize).take k).flatten.head?.map Share.created)) :
    ∀ other ∈ PROPRows pool block shares, other.created ≤ share.created := by
  have hdescending : Descending Share.created (PROPRows pool block shares) :=
    descending_flatten_blockPages shares pool.id block pageSize_pos
  have hsplit : PROPRows pool block shares =
      ((blockPages shares pool.id block pageSize).take k).flatten ++
        ((blockPages shares pool.id block pageSize).drop k).flatten :=
    (flatten_take_append_drop _ k).symm
  have hpool : share.poolId = pool.id := by
    have hrow : share ∈ PROPRows pool block shares := hsplit ▸ List.mem_append_left _ hmem
    have hbefore := (mem_sharesBefore.mp
      ((flatten_blockPages_sublist shares pool.id block pageSize_pos).subset hrow)).2
    simp only [ShareRepository.isBefore, Bool.and_eq_true, decide_eq_true_eq] at hbefore
    exact hbefore.1
  cases hrows : ((blockPages shares pool.id block pageSize).take k).flatten with
  | nil =>
      rw [hrows] at hmem
      cases hmem
  | cons newest rest =>
      rw [hrows, List.head?_cons, Option.map_some, sharesAfter,
        ShareRepository.deleteSharesBefore, List.mem_filter] at hsurvives
      have hge : newest.created ≤ share.created := by
        simpa [ShareRepository.isBefore, hpool] using hsurvives.2
      rw [hsplit, hrows, List.cons_append] at hdescending ⊢
      intro other hother
      cases List.mem_cons.mp hother with
      | inl heq => exact heq ▸ hge
      | inr hrest => exact ((List.pairwise_cons.mp hdescending).1 other hrest).trans hge

variable {ct : CancellationToken} {now n : Nat} {block : Block} {db db' : Database}

theorem contributingShares_eq {st : ScoreState} {calculation : Calculation}
    (hread : readScores handler pageSize pool ct (now + 2) block db.shares = .ok (st, n))
    (hfinish : finish (blockRewardRemaining handler pool block) st = .ok calculation) :
    contributingShares handler pool ⟨db, ct, now, block⟩ = st.processed.filter fun share =>
      0 < contribution handler (blockRewardRemaining handler pool block) st share := by
  rw [contributingShares, calculateRewards]
  simp only [hread, hfinish]

/-- What a committed settlement has read and calculated. -/
theorem exists_readScores (hstatus : block.status = .confirmed)
    (hok : processBlock handler updateBalances pool ct now block db = .ok (db', n)) :
    ∃ st n calculation, readScores handler pageSize pool ct (now + 2) block db.shares =
        .ok (st, n) ∧
      finish (blockRewardRemaining handler pool block) st = .ok calculation ∧
      db'.shares = sharesAfter db.shares pool.id calculation.shareCutOffDate := by
  have hshares := (onlyCredits_updateBlockRewardBalances handler pool db
    (withEfforts handler pool block db)).shares
  obtain ⟨_, db₁, hscheme, rfl⟩ := (processBlock_confirmed_eq_ok_iff hstatus).mp hok
  obtain ⟨st, n', calculation, hread, hfinish, hsettled⟩ := updateBalances_ok hscheme
  rw [hshares] at hread
  refine ⟨st, n', calculation, hread, hfinish, ?_⟩
  rw [← hshares]
  exact hsettled.shares

theorem contribution_pos_iff {l : List Share} {st : ScoreState} (h : Gathered handler l st)
    {blockReward : ℚ} {share : Share} (hmem : share ∈ l) :
    0 < contribution handler blockReward st share ↔ 0 < blockReward ∧ 0 < score handler share := by
  have hsum : score handler share ≤ st.accumulatedScore := by
    rw [h.score]
    apply List.single_le_sum
    · intro x hx
      obtain ⟨other, _, rfl⟩ := List.mem_map.mp hx
      exact score_nonneg handler other
    · exact List.mem_map_of_mem hmem
  rw [contribution]
  constructor
  · intro hpos
    have hscore : 0 < score handler share := by
      apply (score_nonneg handler share).lt_of_ne
      intro hzero
      rw [← hzero, zero_mul] at hpos
      exact hpos.false
    have hrate := (mul_pos_iff_of_pos_left hscore).mp hpos
    have hreward := mul_pos hrate (hscore.trans_le hsum)
    rw [div_mul_cancel₀ _ (hscore.trans_le hsum).ne'] at hreward
    exact ⟨hreward, hscore⟩
  · rintro ⟨hreward, hscore⟩
    exact mul_pos hscore (div_pos hreward (hscore.trans_le hsum))

/-- What is known of a row that contributes to a settlement. -/
theorem paid_of_mem (hstatus : block.status = .confirmed)
    (hok : processBlock handler updateBalances pool ct now block db = .ok (db', n))
    {share : Share} (h : share ∈ contributingShares handler pool ⟨db, ct, now, block⟩) :
    Paid handler pool block db.shares db'.shares share := by
  obtain ⟨st, n', calculation, hread, hfinish, hshares⟩ := exists_readScores hstatus hok
  obtain ⟨k, _, hgathered, hcutoff⟩ := gathered_of_readScores_ok pageSize_pos hread
  rw [contributingShares_eq hread hfinish, hgathered.processed, List.mem_filter] at h
  obtain ⟨hmem, hpos⟩ := h
  obtain ⟨hreward, hscore⟩ := (contribution_pos_iff hgathered hmem).mp (of_decide_eq_true hpos)
  have hdate : calculation.shareCutOffDate = st.shareCutOffDate := by
    rw [← ((finish_eq_ok_iff _ hgathered).mp hfinish).2]
  refine ⟨hreward, hscore, (flatten_take_sublist _ k).subset hmem, fun hsurvives => ?_⟩
  rw [hshares, hdate, hcutoff] at hsurvives
  exact created_le_of_survives hmem hsurvives

/-- An uncancelled settlement is paid for all rows with a score. -/
theorem mem_contributingShares_none {share : Share}
    (hstatus : block.status = .confirmed)
    (hok : processBlock handler updateBalances pool .none now block db = .ok (db', n))
    (hreward : 0 < blockRewardRemaining handler pool block) (hscore : 0 < score handler share)
    (hmem : share ∈ PROPRows pool block db.shares) :
    share ∈ contributingShares handler pool ⟨db, .none, now, block⟩ := by
  obtain ⟨st, n', calculation, hread, hfinish, _⟩ := exists_readScores hstatus hok
  obtain ⟨k, hk, hgathered, _⟩ := gathered_of_readScores_ok pageSize_pos hread
  rw [hk rfl, List.take_length] at hgathered
  rw [contributingShares_eq hread hfinish, hgathered.processed, List.mem_filter]
  exact ⟨hmem, decide_eq_true ((contribution_pos_iff hgathered hmem).mpr ⟨hreward, hscore⟩)⟩

/-! ## Runs -/

/-- A transaction only takes shares out of the table. -/
theorem shares_sublist (hok : processBlock handler updateBalances pool ct now block db =
    .ok (db', n)) : db'.shares.Sublist db.shares := by
  by_cases hstatus : block.status = .confirmed
  · obtain ⟨_, _, _, _, _, hshares⟩ := exists_readScores hstatus hok
    rw [hshares]
    cases Calculation.shareCutOffDate _ with
    | none => exact List.Sublist.refl _
    | some cutoff => exact List.filter_sublist
  · have hdb : db' = _ := processBlock_eq_ok_of_ne hstatus hok
    rw [hdb]

/-- The log of a run that starts with a processed block. -/
theorem settlements_settle (steps : List RoundStep) (ct : CancellationToken) (now : Nat)
    (block : Block) (db : Database) :
    settlements handler pool db (.settle ct now block :: steps) =
        settlements handler pool db steps ∨
      ∃ db' n, processBlock handler updateBalances pool ct now block db = .ok (db', n) ∧
        ((block.status ≠ .confirmed ∧ settlements handler pool db (.settle ct now block :: steps) =
            settlements handler pool db' steps) ∨
          (block.status = .confirmed ∧ settlements handler pool db (.settle ct now block :: steps) =
            ⟨db, ct, now, block⟩ :: settlements handler pool db' steps)) := by
  rw [settlements]
  cases hok : processBlock handler updateBalances pool ct now block db with
  | error e => exact Or.inl rfl
  | ok result =>
      refine Or.inr ⟨result.1, result.2, rfl, ?_⟩
      by_cases hstatus : block.status = .confirmed
      · exact Or.inr ⟨hstatus, if_pos hstatus⟩
      · exact Or.inl ⟨hstatus, if_neg hstatus⟩

/-- The shares before a settlement were there when the run started or have been recorded since. -/
theorem mem_of_mem_settlements {steps : List RoundStep} {db : Database} {settlement : Settlement}
    (h : settlement ∈ settlements handler pool db steps) :
    settlement.before.shares ⊆ db.shares ++ steps.flatMap RoundStep.recorded := by
  induction steps generalizing db with
  | nil => cases h
  | cons step steps ih =>
      cases step with
      | record shares =>
          intro share hmem
          simpa [RoundStep.recorded, or_assoc] using ih h hmem
      | settle ct now block =>
          rw [List.flatMap_cons, RoundStep.recorded, List.nil_append]
          rcases settlements_settle steps ct now block db with heq | ⟨db', n, hok, hcase⟩
          · exact ih (heq ▸ h)
          · have hsub : db'.shares ++ steps.flatMap RoundStep.recorded ⊆
                db.shares ++ steps.flatMap RoundStep.recorded :=
              ((shares_sublist hok).append_right _).subset
            rcases hcase with ⟨_, heq⟩ | ⟨_, heq⟩
            · exact List.Subset.trans (ih (heq ▸ h)) hsub
            · rw [heq] at h
              cases List.mem_cons.mp h with
              | inl heq => exact heq ▸ List.subset_append_left _ _
              | inr hrest => exact List.Subset.trans (ih hrest) hsub

/-- A settlement leaves the newest of the rows it reads in the table. -/
theorem mem_of_newest (hok : processBlock handler updateBalances pool ct now block db =
    .ok (db', n)) {share : Share} (hmem : share ∈ db.shares)
    (hnewest : ∀ other ∈ PROPRows pool block db.shares, other.created ≤ share.created) :
    share ∈ db'.shares := by
  by_cases hstatus : block.status = .confirmed
  · obtain ⟨st, n', calculation, hread, hfinish, hshares⟩ := exists_readScores hstatus hok
    obtain ⟨k, _, hgathered, hcutoff⟩ := gathered_of_readScores_ok pageSize_pos hread
    have hdate : calculation.shareCutOffDate = st.shareCutOffDate := by
      rw [← ((finish_eq_ok_iff _ hgathered).mp hfinish).2]
    rw [hshares, hdate, hcutoff]
    cases hrows : ((blockPages db.shares pool.id block pageSize).take k).flatten with
    | nil => exact hmem
    | cons first rest =>
        have hfirst : first ∈ PROPRows pool block db.shares :=
          (flatten_take_sublist _ k).subset (hrows ▸ List.mem_cons_self)
        rw [List.head?_cons, Option.map_some, sharesAfter, ShareRepository.deleteSharesBefore,
          List.mem_filter]
        exact ⟨hmem, by simp [ShareRepository.isBefore, hnewest first hfirst]⟩
  · have hdb : db' = _ := processBlock_eq_ok_of_ne hstatus hok
    rw [hdb]
    exact hmem

/-- What the log holds of a settlement. -/
def Settlement.Committed (handler : PayoutHandler) (pool : PoolConfig) (settlement : Settlement) :
    Prop :=
  settlement.block.status = .confirmed ∧
    ∃ db' n, processBlock handler updateBalances pool settlement.ct settlement.now settlement.block
      settlement.before = .ok (db', n)

theorem committed_of_mem_settlements {steps : List RoundStep} {db : Database}
    {settlement : Settlement} (h : settlement ∈ settlements handler pool db steps) :
    settlement.Committed handler pool := by
  induction steps generalizing db with
  | nil => cases h
  | cons step steps ih =>
      cases step with
      | record shares => exact ih h
      | settle ct now block =>
          rcases settlements_settle steps ct now block db with heq | ⟨db', n, hok, hcase⟩
          · exact ih (heq ▸ h)
          · rcases hcase with ⟨_, heq⟩ | ⟨hstatus, heq⟩
            · exact ih (heq ▸ h)
            · rw [heq] at h
              cases List.mem_cons.mp h with
              | inl hfirst => exact hfirst ▸ ⟨hstatus, db', n, hok⟩
              | inr hrest => exact ih hrest

/-- A row that contributes to two settlements is read and paid again. -/
theorem paidAgain_of_mem {steps : List RoundStep} (hstatus : block.status = .confirmed)
    (hok : processBlock handler updateBalances pool ct now block db = .ok (db', n))
    (hrows : ((db.shares ++ steps.flatMap RoundStep.recorded).map Share.rowId).Nodup)
    {later : Settlement} (hlater : later ∈ settlements handler pool db' steps) {share : Share}
    (h : share ∈ contributingShares handler pool ⟨db, ct, now, block⟩)
    (h' : share ∈ contributingShares handler pool later) :
    PaidAgain handler pool ⟨db, ct, now, block⟩ later share := by
  obtain ⟨hreward, hscore, hmem, hnewest⟩ := paid_of_mem hstatus hok h
  obtain ⟨hstatus', _, _, hok'⟩ := committed_of_mem_settlements hlater
  obtain ⟨hreward', _, hmem', _⟩ := paid_of_mem hstatus' hok' h'
  have hdb : share ∈ db.shares := mem_of_mem_blockPages pageSize_pos hmem
  have hsurvives : share ∈ db'.shares := by
    have htable := mem_of_mem_settlements hlater (mem_of_mem_blockPages pageSize_pos hmem')
    cases List.mem_append.mp htable with
    | inl hmem => exact hmem
    | inr hrecorded =>
        -- a row of the table is not recorded a second time
        rw [List.map_append] at hrows
        exact absurd rfl ((List.nodup_append.mp hrows).2.2 _ (List.mem_map_of_mem hdb) _
          (List.mem_map_of_mem hrecorded))
  exact ⟨hreward, hreward', hscore, hmem, hnewest hsurvives, hmem'⟩

/-- Pairs of settlements of a run for which any row paid twice is paid again as a newest row. -/
theorem pairwise_paidAgain (steps : List RoundStep) {db : Database}
    (hrows : ((db.shares ++ steps.flatMap RoundStep.recorded).map Share.rowId).Nodup) :
    (settlements handler pool db steps).Pairwise fun earlier later =>
      ∀ share ∈ contributingShares handler pool earlier,
        share ∈ contributingShares handler pool later →
          PaidAgain handler pool earlier later share := by
  induction steps generalizing db with
  | nil => exact List.Pairwise.nil
  | cons step steps ih =>
      cases step with
      | record shares =>
          apply ih
          simpa [RoundStep.recorded] using hrows
      | settle ct now block =>
          rw [List.flatMap_cons, RoundStep.recorded, List.nil_append] at hrows
          rcases settlements_settle steps ct now block db with heq | ⟨db', n, hok, hcase⟩
          · exact heq ▸ ih hrows
          · have hrest := ih (hrows.sublist
              (((shares_sublist hok).append_right _).map Share.rowId))
            rcases hcase with ⟨_, heq⟩ | ⟨hstatus, heq⟩
            · exact heq ▸ hrest
            · rw [heq, List.pairwise_cons]
              exact ⟨fun later hlater share h h' =>
                paidAgain_of_mem hstatus hok hrows hlater h h', hrest⟩

theorem exists_processBlock (block : Block) (handler : PayoutHandler) (pool : PoolConfig)
    (now : Nat) (hstatus : block.status = .confirmed) (db : Database) :
    ∃ result, processBlock handler updateBalances pool .none now block db = .ok result := by
  obtain ⟨⟨db₁, n⟩, hok⟩ := exists_updateBalances handler pool (now + 2)
    (withEfforts handler pool block db) (blockRewardRemaining handler pool block)
    (updateBlockRewardBalances handler pool db (withEfforts handler pool block db)).1
  exact ⟨(_, n), (processBlock_confirmed_eq_ok_iff hstatus).mpr
    ⟨effortsUnseen_none now block, db₁, hok, rfl⟩⟩

/-- Two uncancelled settlements both pay a row that is paid again. -/
theorem mem_contributingShares_of_paidAgain {earlier later : Settlement}
    (hearlier : earlier.Committed handler pool) (hlater : later.Committed handler pool)
    (hct : earlier.ct = .none ∧ later.ct = .none) {share : Share}
    (h : PaidAgain handler pool earlier later share) :
    share ∈ contributingShares handler pool earlier ∧
      share ∈ contributingShares handler pool later := by
  obtain ⟨hreward, hreward', hscore, hmem, _, hmem'⟩ := h
  obtain ⟨before, ct, now, block⟩ := earlier
  obtain ⟨before', ct', now', block'⟩ := later
  obtain ⟨rfl, rfl⟩ : ct = .none ∧ ct' = .none := hct
  obtain ⟨hstatus, _, _, hok⟩ := hearlier
  obtain ⟨hstatus', _, _, hok'⟩ := hlater
  exact ⟨mem_contributingShares_none hstatus hok hreward hscore hmem,
    mem_contributingShares_none hstatus' hok' hreward' hscore hmem'⟩

end Rounds

/-- A run of recordings and settlements pays every row at most once when no newest row of a paid
settlement is read again for a reward, and without cancellations only then. -/
theorem paidOnce_iff_not_paidAgain (handler : PayoutHandler) (pool : PoolConfig) (db : Database)
    (steps : List RoundStep)
    (hrows : ((db.shares ++ steps.flatMap RoundStep.recorded).map Share.rowId).Nodup) :
    ((settlements handler pool db steps).Pairwise (fun earlier later =>
        ¬∃ share, PaidAgain handler pool earlier later share) →
      PaidOnce handler pool (settlements handler pool db steps)) ∧
    ((∀ settlement ∈ settlements handler pool db steps, settlement.ct = .none) →
      PaidOnce handler pool (settlements handler pool db steps) →
        (settlements handler pool db steps).Pairwise fun earlier later =>
          ¬∃ share, PaidAgain handler pool earlier later share) := by
  constructor
  · intro hnot
    apply ((pairwise_paidAgain steps hrows).and hnot).imp
    intro earlier later ⟨hagain, hnone⟩ share h h'
    exact hnone ⟨share, hagain share h h'⟩
  · intro hct honce
    apply (List.Pairwise.and_mem.mp honce).imp
    rintro earlier later ⟨hearlier, hlater, hdisjoint⟩ ⟨share, hagain⟩
    obtain ⟨h, h'⟩ := mem_contributingShares_of_paidAgain
      (committed_of_mem_settlements hearlier) (committed_of_mem_settlements hlater)
      ⟨hct _ hearlier, hct _ hlater⟩ hagain
    exact hdisjoint share h h'

/-! ## Two consecutive rounds -/

namespace ConsecutiveRounds

def pool : PoolConfig := { id := "pool", address := "wallet" }

def first : Block :=
  { id := 1, poolId := "pool", blockHeight := 1, status := .confirmed, miner := "a", reward := 10,
    created := 2 }

def second : Block :=
  { id := 2, poolId := "pool", blockHeight := 2, status := .confirmed, miner := "a", reward := 10,
    created := 4 }

theorem exists_settlements (db : Database) (shares : List Share) : ∃ db₁ n,
    processBlock .base updateBalances pool .none 0 first db = .ok (db₁, n) ∧
    settlements .base pool db [.settle .none 0 first, .record shares, .settle .none 0 second] =
      [⟨db, .none, 0, first⟩, ⟨{ db₁ with shares := db₁.shares ++ shares }, .none, 0, second⟩] := by
  obtain ⟨⟨db₁, n⟩, h₁⟩ := exists_processBlock first .base pool 0 rfl db
  obtain ⟨⟨db₂, n₂⟩, h₂⟩ := exists_processBlock second .base pool 0 rfl
    { db₁ with shares := db₁.shares ++ shares }
  refine ⟨db₁, n, h₁, ?_⟩
  simp only [settlements, h₁, h₂]
  rfl

theorem remaining_pos : 0 < blockRewardRemaining .base pool first ∧
    0 < blockRewardRemaining .base pool second := by
  simp [blockRewardRemaining, activeRecipients, pool, PayoutHandler.base, first, second]

theorem rows_first : PROPRows pool first [.unit 1 "a" 1] = [.unit 1 "a" 1] := by
  rw [PROPRows, blockPages, sharePages_of_lt (by decide)]
  decide

theorem rows_second : PROPRows pool second ([.unit 1 "a" 1] ++ [.unit 2 "b" 3]) =
    [.unit 2 "b" 3, .unit 1 "a" 1] := by
  rw [PROPRows, blockPages, sharePages_of_lt (by decide)]
  decide

/-- The only share of the first round is paid in the second one as well. -/
theorem not_paidOnce : ¬PaidOnce .base pool (settlements .base pool { shares := [.unit 1 "a" 1] }
    [.settle .none 0 first, .record [.unit 2 "b" 3], .settle .none 0 second]) := by
  obtain ⟨db₁, n, hok, hlog⟩ := exists_settlements { shares := [.unit 1 "a" 1] } [.unit 2 "b" 3]
  have hshares : db₁.shares = [.unit 1 "a" 1] := by
    have hmem : Share.unit 1 "a" 1 ∈ db₁.shares :=
      mem_of_newest hok (List.mem_singleton_self _) (by simp [rows_first])
    cases List.sublist_singleton.mp (shares_sublist hok) with
    | inl hnil => simp [hnil] at hmem
    | inr heq => exact heq
  have hcommitted : ∀ settlement ∈ settlements .base pool { shares := [.unit 1 "a" 1] }
      [.settle .none 0 first, .record [.unit 2 "b" 3], .settle .none 0 second],
      settlement.Committed .base pool := fun _ => committed_of_mem_settlements
  rw [hlog] at hcommitted
  intro honce
  rw [hlog] at honce
  have hagain : PaidAgain .base pool ⟨{ shares := [.unit 1 "a" 1] }, .none, 0, first⟩
      ⟨{ db₁ with shares := db₁.shares ++ [.unit 2 "b" 3] }, .none, 0, second⟩
      (.unit 1 "a" 1) := by
    refine ⟨remaining_pos.1, remaining_pos.2, ?_, ?_, ?_, ?_⟩
    · simp [score, Share.unit, PayoutHandler.base]
    · simp [rows_first]
    · simp [rows_first]
    · simp only [hshares, rows_second]
      simp
  obtain ⟨h, h'⟩ := mem_contributingShares_of_paidAgain (hcommitted _ (by simp))
    (hcommitted _ (by simp)) ⟨rfl, rfl⟩ hagain
  exact (List.pairwise_cons.mp honce).1 _ (List.mem_singleton_self _) _ h h'

/-- A share recorded after the first settlement, which found none, is paid once. -/
theorem paidOnce : PaidOnce .base pool (settlements .base pool {}
    [.settle .none 0 first, .record [.unit 1 "a" 3], .settle .none 0 second]) := by
  obtain ⟨db₁, n, hok, hlog⟩ := exists_settlements {} [.unit 1 "a" 3]
  have hnil : PROPRows pool first [] = [] := by
    rw [PROPRows, blockPages, sharePages_of_lt (by decide)]
    decide
  refine (paidOnce_iff_not_paidAgain .base pool {} [.settle .none 0 first,
    .record [.unit 1 "a" 3], .settle .none 0 second] (by decide)).1 ?_
  rw [hlog]
  apply List.Pairwise.cons
  · rintro later _ ⟨share, _, _, _, hmem, _⟩
    rw [hnil] at hmem
    cases hmem
  · exact List.pairwise_singleton _ _

end ConsecutiveRounds

end Miningcore
