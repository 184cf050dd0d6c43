import Miningcore.Payments.PaymentSchemes.PageLoop
import Miningcore.Payments.PaymentSchemes.BalanceUpdate
import Mathlib.Algebra.BigOperators.Ring.List
import Mathlib.Algebra.Order.BigOperators.Group.List
import Mathlib.Tactic.FieldSimp
import Mathlib.Tactic.Linarith
import Mathlib.Tactic.Ring

/-!
# The PROP payment scheme

All shares up to the block share its reward in proportion to their scores. The
cutoff is the newest creation time read, so that a successful payout cleans up
the shares before it.
-/

namespace Miningcore

open Foundation

namespace PROPPaymentScheme

def pageSize : Nat := 100000

theorem pageSize_pos : 0 < pageSize := by decide

/-- The variables of the calculation. The list of processed shares is a log for statements about
rows; the source has no such variable. -/
structure ScoreState where
  shares : Dictionary String ℚ := .empty
  scores : Dictionary String ℚ := .empty
  accumulatedScore : ℚ := 0
  shareCutOffDate : Option DateTime := none
  done : Bool := false
  processed : List Share := []
deriving DecidableEq

section Source

variable (handler : PayoutHandler)

/-- The body of the share loop. -/
def processShare (st : ScoreState) (share : Share) : ScoreState :=
  let address := share.miner
  let shareDiffAdjusted := handler.adjustShareDifficulty share.difficulty
  let score := shareDiffAdjusted / share.networkDifficulty
  { st with
    shares := st.shares.accumulate address shareDiffAdjusted
    scores := st.scores.accumulate address score
    accumulatedScore := st.accumulatedScore + score
    shareCutOffDate := match st.shareCutOffDate with
      | none => some share.created
      | some cutoff => if cutoff < share.created then some share.created else some cutoff
    processed := st.processed ++ [share] }

/-- The share loop over one page, and what it makes of `done`. -/
def processPage (pageSize : Nat) (st : ScoreState) (page : List Share) :
    Except Exception ScoreState :=
  .ok { page.foldl (processShare handler) st with
    done := if page.length < pageSize then true else decide (page.length ≤ 0) }

/-- One score of an address. -/
def addScore (rewardPerScorePoint : ℚ) (acc : Dictionary String ℚ × ℚ) (score : String × ℚ) :
    Dictionary String ℚ × ℚ :=
  let reward := score.2 * rewardPerScorePoint
  (if 0 < reward then acc.1.accumulate score.1 reward else acc.1, acc.2 - reward)

/-- The loop over the distinct addresses, and over all scores of the current address. -/
def buildRewards (rewardPerScorePoint : ℚ) (scores : Dictionary String ℚ)
    (acc : Dictionary String ℚ × ℚ) : Dictionary String ℚ × ℚ :=
  scores.keys.eraseDups.foldl
    (fun acc address =>
      (scores.entries.filter fun score => score.1 = address).foldl
        (addScore rewardPerScorePoint) acc)
    acc

/-- The rewards and what remains of the block reward. -/
def distribute (blockReward : ℚ) (st : ScoreState) : Dictionary String ℚ × ℚ :=
  if 0 < st.accumulatedScore then
    buildRewards (blockReward / st.accumulatedScore) st.scores (.empty, blockReward)
  else (.empty, blockReward)

/-- The second half of `CalculateRewardsAsync`, after its page loop. -/
def finish (blockReward : ℚ) (st : ScoreState) : Except Exception Calculation :=
  let (rewards, blockRewardRemaining) := distribute blockReward st
  if blockRewardRemaining ≤ 0 ∧ st.done = false then
    .error (.overflow "blockRewardRemaining < 0")
  else .ok ⟨st.shares, rewards, st.shareCutOffDate⟩

def readScores (pageSize : Nat) (pool : PoolConfig) (ct : CancellationToken) (now : Nat)
    (block : Block) (shares : List Share) : Except Exception (ScoreState × Nat) :=
  PageLoop.readPages (processPage handler pageSize) ScoreState.done ct shares pool.id pageSize now
    block.created true {}

def calculateRewards (pageSize : Nat) (pool : PoolConfig) (ct : CancellationToken) (now : Nat)
    (block : Block) (blockReward : ℚ) (shares : List Share) :
    Except Exception (ScoreState × Calculation × Nat) :=
  match readScores handler pageSize pool ct now block shares with
  | .error e => .error e
  | .ok (st, now') =>
      match finish blockReward st with
      | .error e => .error e
      | .ok calculation => .ok (st, calculation, now')

end Source

def updateBalances : PayoutScheme := fun handler pool ct now block blockReward db =>
  match calculateRewards handler pageSize pool ct now block blockReward db.shares with
  | .error e => .error e
  | .ok (_, calculation, now') =>
      updateBalancesFrom pageSize ct pool block now' db calculation

/-! ## The calculation as a function of the shares read -/

variable {handler : PayoutHandler}

/-- The variables after a list of shares. -/
def gather (handler : PayoutHandler) (l : List Share) : ScoreState :=
  l.foldl (processShare handler) {}

theorem gather_concat (l : List Share) (share : Share) :
    gather handler (l ++ [share]) = processShare handler (gather handler l) share := by
  simp [gather]

theorem done_foldl_processShare (handler : PayoutHandler) (l : List Share) (st : ScoreState) :
    (l.foldl (processShare handler) st).done = st.done := by
  induction l generalizing st with
  | nil => rfl
  | cons share l ih => exact ih (processShare handler st share)

theorem processPage_full (handler : PayoutHandler) {pageSize : Nat} (hs : 0 < pageSize)
    {page : List Share}
    (hlen : page.length = pageSize) {st : ScoreState} (hst : st.done = false) :
    processPage handler pageSize st page = .ok (page.foldl (processShare handler) st) := by
  have hdone := (done_foldl_processShare handler page st).trans hst
  have hne : page ≠ [] := List.ne_nil_of_length_pos (hlen ▸ hs)
  simp only [processPage, hlen, lt_irrefl, if_false, Nat.le_zero_eq, hs.ne', decide_false]
  rw [← hdone]

theorem foldPages_full (handler : PayoutHandler) {pageSize : Nat} (hs : 0 < pageSize)
    {full : List (List Share)}
    (hfull : ∀ page ∈ full, page.length = pageSize) (rest : List (List Share)) {st : ScoreState}
    (hst : st.done = false) :
    PageLoop.foldPages (processPage handler pageSize) ScoreState.done st (full ++ rest) =
      PageLoop.foldPages (processPage handler pageSize) ScoreState.done
        (full.flatten.foldl (processShare handler) st) rest := by
  induction full generalizing st with
  | nil => rfl
  | cons page full ih =>
      have hpage := processPage_full handler hs (hfull page List.mem_cons_self) hst
      rw [List.cons_append, PageLoop.foldPages, if_neg (by simp [hst]), hpage, List.flatten_cons,
        List.foldl_append]
      exact ih (fun p hp => hfull p (List.mem_cons_of_mem _ hp))
        ((done_foldl_processShare handler page st).trans hst)

/-- Without a cancellation the loop gathers the scores of all pages, and is done. -/
theorem foldPages_sharePages {pageSize : Nat} (hs : 0 < pageSize) (shares : List Share)
    (poolId : String) (before : DateTime) (inclusive : Bool) :
    PageLoop.foldPages (processPage handler pageSize) ScoreState.done {}
        (sharePages shares poolId before inclusive pageSize) =
      .ok { gather handler (sharePages shares poolId before inclusive pageSize).flatten with
        done := true } := by
  obtain ⟨full, short, hpages, hfull, hshort⟩ :=
    keysetPages_shape Share.created hs (sharesBefore shares poolId before inclusive)
  have hdone := done_foldl_processShare handler full.flatten {}
  rw [sharePages, hpages, foldPages_full handler hs hfull _ rfl, PageLoop.foldPages,
    if_neg (by rw [hdone]; decide), processPage, if_pos hshort]
  simp [PageLoop.foldPages, gather]

theorem foldPages_take {pageSize : Nat} (hs : 0 < pageSize) {full : List (List Share)}
    (hfull : ∀ page ∈ full, page.length = pageSize) :
    PageLoop.foldPages (processPage handler pageSize) ScoreState.done {} full =
      .ok (gather handler full.flatten) := by
  have hdone : ({} : ScoreState).done = false := rfl
  have h := foldPages_full handler hs hfull [] hdone
  rwa [List.append_nil] at h

variable {pageSize : Nat} {pool : PoolConfig} {ct : CancellationToken} {now : Nat} {block : Block}
  {shares : List Share}

theorem exists_readScores_none (handler : PayoutHandler) (pool : PoolConfig) (now : Nat)
    (block : Block) (shares : List Share) (hs : 0 < pageSize) :
    ∃ n, readScores handler pageSize pool .none now block shares =
      .ok ({ gather handler (blockPages shares pool.id block pageSize).flatten with
        done := true }, n) :=
  (PageLoop.exists_readPages_none_iff now hs).mpr (foldPages_sharePages hs _ _ _ _)

/-- A loop that ends has gathered the scores of all pages and is done, or those of the pages before
a test that saw the token. -/
theorem readScores_ok (hs : 0 < pageSize) {st : ScoreState} {n : Nat}
    (h : readScores handler pageSize pool ct now block shares = .ok (st, n)) :
    st = { gather handler (blockPages shares pool.id block pageSize).flatten with done := true } ∨
      st.done = false ∧ ∃ k < (blockPages shares pool.id block pageSize).length,
        PageLoop.SeenAtTest ct pageSize now k ∧
          st = gather handler ((blockPages shares pool.id block pageSize).take k).flatten := by
  rcases PageLoop.readPages_ok hs h with hall | ⟨k, hk, hseen, hproc, hdone⟩
  · rw [foldPages_sharePages hs] at hall
    cases hall
    exact Or.inl rfl
  · rw [foldPages_take hs (PageLoop.length_page_of_interrupted hs hk)] at hproc
    cases hproc
    exact Or.inr ⟨hdone, k, hk, hseen, rfl⟩

end PROPPaymentScheme

end Miningcore
