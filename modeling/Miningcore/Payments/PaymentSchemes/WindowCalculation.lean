import Miningcore.Payments.PaymentSchemes.PageLoop
import Miningcore.Foundation.CappedSum
import Mathlib.Tactic.FieldSimp
import Mathlib.Tactic.Linarith
import Mathlib.Tactic.Ring

/-!
# The reward calculation over a score window

`CalculateRewardsAsync` of the PPLNS scheme, and of its variant with a finder
share, walks down the shares until their scores fill the window. Both differ in
the amount that is distributed and in the rewards they start from.
-/

namespace Miningcore

open Foundation ShareRepository

/-- The variables of the calculation. The list of processed shares is a log for statements about
rows; the source has no such variable. -/
structure RewardState where
  shares : Dictionary String ℚ := .empty
  rewards : Dictionary String ℚ := .empty
  accumulatedScore : ℚ := 0
  blockRewardRemaining : ℚ
  shareCutOffDate : Option DateTime := none
  done : Bool := false
  processed : List Share := []
deriving DecidableEq

namespace WindowCalculation

variable (handler : PayoutHandler) (window pot : ℚ)

/-- The body of the share loop, which distributes `pot` over the window. -/
def processShare (st : RewardState) (share : Share) : Except Exception RewardState :=
  let address := share.miner
  let shareDiffAdjusted := handler.adjustShareDifficulty share.difficulty
  let uncapped := shareDiffAdjusted / share.networkDifficulty
  -- a score that would cross the threshold is cut down to the remaining value
  let crosses := decide (window ≤ st.accumulatedScore + uncapped)
  let score := if crosses then window - st.accumulatedScore else uncapped
  if window = 0 then .error .divideByZero
  else
    let reward := score * pot / window
    let blockRewardRemaining := st.blockRewardRemaining - reward
    if blockRewardRemaining ≤ 0 ∧ crosses = false then
      .error (.overflow "blockRewardRemaining < 0")
    else
      .ok {
        shares := st.shares.accumulate address shareDiffAdjusted
        rewards := if 0 < reward then st.rewards.accumulate address reward else st.rewards
        accumulatedScore := st.accumulatedScore + score
        blockRewardRemaining
        shareCutOffDate := if crosses then some share.created else st.shareCutOffDate
        done := crosses
        processed := st.processed ++ [share] }

/-- The share loop over one page. -/
def processPage : RewardState → List Share → Except Exception RewardState
  | st, [] => .ok st
  | st, share :: rest =>
      if st.done then .ok st
      else match processShare handler window pot st share with
        | .error e => .error e
        | .ok st' => processPage st' rest

variable {handler window pot}

/-! ## The calculation as a function of the shares read -/

theorem processPage_done {st : RewardState} (h : st.done = true) (l : List Share) :
    processPage handler window pot st l = .ok st := by
  cases l <;> simp [processPage, h]

theorem processPage_append (st : RewardState) (l₁ l₂ : List Share) :
    processPage handler window pot st (l₁ ++ l₂) =
      match processPage handler window pot st l₁ with
      | .error e => .error e
      | .ok st' => processPage handler window pot st' l₂ := by
  induction l₁ generalizing st with
  | nil => rfl
  | cons share l ih =>
      by_cases hd : st.done = true
      · simp [processPage, hd, processPage_done]
      · simp only [List.cons_append, processPage, hd, Bool.false_eq_true, if_false]
        cases processShare handler window pot st share with
        | error e => rfl
        | ok st' => exact ih st'

/-- The loop over pages of the calculation is one walk down their rows. -/
theorem foldPages_processPage (st : RewardState) (pages : List (List Share)) :
    PageLoop.foldPages (processPage handler window pot) RewardState.done st pages =
      processPage handler window pot st pages.flatten := by
  induction pages generalizing st with
  | nil => rfl
  | cons page rest ih =>
      cases hd : st.done with
      | true => rw [PageLoop.foldPages_done hd, processPage_done hd]
      | false =>
          rw [List.flatten_cons, processPage_append, PageLoop.foldPages, if_neg (by simp [hd])]
          cases processPage handler window pot st page with
          | error e => rfl
          | ok st' => exact ih st'

/-! ## The calculation in closed form -/

variable (handler window pot)

/-- The scan that stops at the share whose score fills the window. -/
abbrev windowScan : Scan ℚ Share := capScan (score handler) window

/-- What a share of the window earns for its contribution. -/
def reward (part : Share × ℚ) : String × ℚ := (part.1.miner, part.2 * pot / window)

def addDifficulty (shares : Dictionary String ℚ) (share : Share) : Dictionary String ℚ :=
  shares.accumulate share.miner (handler.adjustShareDifficulty share.difficulty)

/-- The state after a walk down a list of shares that meets no exception. -/
def fill (st : RewardState) (l : List Share) : RewardState :=
  let parts := cappedParts (score handler) window st.accumulatedScore l
  let consumed := (windowScan handler window).consume st.accumulatedScore l
  let filled := (windowScan handler window).stops st.accumulatedScore l
  { shares := consumed.foldl (addDifficulty handler) st.shares
    rewards := st.rewards.accumulateAll (parts.map (reward window pot))
    accumulatedScore := st.accumulatedScore + (parts.map Prod.snd).sum
    blockRewardRemaining :=
      pot - (st.accumulatedScore + (parts.map Prod.snd).sum) * pot / window
    shareCutOffDate :=
      if filled then consumed.getLast?.map Share.created else st.shareCutOffDate
    done := filled
    processed := st.processed ++ consumed }

/-- The exception the first share of a walk throws, if any. No later share throws. -/
def thrown (accumulatedScore : ℚ) : List Share → Option Exception
  | [] => none
  | share :: _ =>
      if window = 0 then some .divideByZero
      else if pot ≤ 0 ∧ accumulatedScore + score handler share < window then
        some (.overflow "blockRewardRemaining < 0")
      else none

theorem thrown_eq_none_iff {handler : PayoutHandler} {window pot accumulatedScore : ℚ}
    {l : List Share} :
    thrown handler window pot accumulatedScore l = none ↔
      ∀ share ∈ l.head?, window ≠ 0 ∧
        (0 < pot ∨ window ≤ accumulatedScore + score handler share) := by
  cases l with
  | nil => simp [thrown]
  | cons share l =>
      by_cases hw : window = 0
      · simp [thrown, hw]
      · simp [thrown, hw, or_iff_not_imp_left]

theorem thrown_eq_none {handler : PayoutHandler} {window pot : ℚ} (hw : 0 < window)
    (hp : 0 < pot) (accumulatedScore : ℚ) (l : List Share) :
    thrown handler window pot accumulatedScore l = none := by
  cases l with
  | nil => rfl
  | cons share l => simp [thrown, hw.ne', hp.not_ge]

/-- What holds of the variables between two shares while the window is not filled. -/
structure Running (st : RewardState) : Prop where
  not_done : st.done = false
  score_nonneg : 0 ≤ st.accumulatedScore
  remaining : st.blockRewardRemaining = pot - st.accumulatedScore * pot / window

variable {handler window pot}

/-- A share that fills the window ends the calculation. -/
theorem processShare_crosses {st : RewardState} (hst : Running window pot st) {share : Share}
    (hw : window ≠ 0) (hc : window ≤ st.accumulatedScore + score handler share)
    (l : List Share) :
    processShare handler window pot st share = .ok (fill handler window pot st (share :: l)) := by
  have hc' : window ≤ st.accumulatedScore +
      handler.adjustShareDifficulty share.difficulty / share.networkDifficulty := hc
  have hrem : st.blockRewardRemaining - (window - st.accumulatedScore) * pot / window =
      pot - (st.accumulatedScore + (window - st.accumulatedScore)) * pot / window := by
    rw [hst.remaining]
    ring
  simp [processShare, hw, hc', fill, cappedParts, Scan.consume_cons, Scan.stops_cons, hc,
    reward, Dictionary.accumulateAll_cons, Dictionary.accumulatePos, addDifficulty, hrem]

/-- A share that leaves room in the window is one step of the walk. -/
theorem processShare_below {st : RewardState} (hst : Running window pot st) {share : Share}
    (hp : 0 < pot) (hc : st.accumulatedScore + score handler share < window) :
    ∃ st', processShare handler window pot st share = .ok st' ∧ Running window pot st' ∧
      st'.accumulatedScore = st.accumulatedScore + score handler share ∧
      ∀ l, fill handler window pot st' l = fill handler window pot st (share :: l) := by
  have hacc : 0 ≤ st.accumulatedScore + score handler share :=
    add_nonneg hst.score_nonneg (score_nonneg handler share)
  have hw : 0 < window := hacc.trans_lt hc
  have hnot : ¬window ≤ st.accumulatedScore + score handler share := not_le.mpr hc
  have hrem : st.blockRewardRemaining - score handler share * pot / window =
      pot - (st.accumulatedScore + score handler share) * pot / window := by
    rw [hst.remaining]
    ring
  have hpos : 0 < pot - (st.accumulatedScore + score handler share) * pot / window := by
    have hlt : (st.accumulatedScore + score handler share) * pot / window < pot := by
      rw [div_lt_iff₀ hw, mul_comm pot window]
      exact mul_lt_mul_of_pos_right hc hp
    linarith
  have hnot' : ¬window ≤ st.accumulatedScore +
      handler.adjustShareDifficulty share.difficulty / share.networkDifficulty := hnot
  have hpos' : ¬st.blockRewardRemaining -
      handler.adjustShareDifficulty share.difficulty / share.networkDifficulty * pot / window
        ≤ 0 := by
    rw [not_le]
    exact hrem ▸ hpos
  refine ⟨{
    shares := addDifficulty handler st.shares share
    rewards := st.rewards.accumulatePos share.miner (score handler share * pot / window)
    accumulatedScore := st.accumulatedScore + score handler share
    blockRewardRemaining := st.blockRewardRemaining - score handler share * pot / window
    shareCutOffDate := st.shareCutOffDate
    done := false
    processed := st.processed ++ [share] }, ?_, ⟨rfl, hacc, hrem⟩, rfl, fun l => ?_⟩
  · simp [processShare, hw.ne', hnot', hpos', addDifficulty, Dictionary.accumulatePos, score]
    rfl
  · simp only [fill, cappedParts, hnot, if_false, Scan.consume_cons, Scan.stops_cons,
      capScan_stop, capScan_step, decide_false, Bool.false_or, Bool.false_eq_true,
      List.foldl_cons, List.map_cons, List.sum_cons, List.append_assoc, List.singleton_append,
      ← add_assoc]
    congr 1
    split
    · rename_i hs
      obtain ⟨a, l', hl'⟩ := List.exists_cons_of_ne_nil
        ((windowScan handler window).consume_ne_nil_of_stops hs)
      rw [hl', List.getLast?_cons_cons]
    · rfl

/-- With nothing to distribute, a share that leaves room in the window trips the guard. -/
theorem processShare_overflow {st : RewardState} (hst : Running window pot st) {share : Share}
    (hp : pot ≤ 0) (hc : st.accumulatedScore + score handler share < window) :
    processShare handler window pot st share = .error (.overflow "blockRewardRemaining < 0") := by
  have hacc : 0 ≤ st.accumulatedScore + score handler share :=
    add_nonneg hst.score_nonneg (score_nonneg handler share)
  have hw : 0 < window := hacc.trans_lt hc
  have hle : st.blockRewardRemaining - score handler share * pot / window ≤ 0 := by
    have hge : pot ≤ (st.accumulatedScore + score handler share) * pot / window := by
      rw [le_div_iff₀ hw, mul_comm pot window]
      exact mul_le_mul_of_nonpos_right hc.le hp
    have hsum : (st.accumulatedScore + score handler share) * pot / window =
        st.accumulatedScore * pot / window + score handler share * pot / window := by ring
    rw [hst.remaining]
    linarith
  have hnot' : ¬window ≤ st.accumulatedScore +
      handler.adjustShareDifficulty share.difficulty / share.networkDifficulty := not_le.mpr hc
  have hle' : st.blockRewardRemaining -
      handler.adjustShareDifficulty share.difficulty / share.networkDifficulty * pot / window
        ≤ 0 := hle
  simp [processShare, hw.ne', hnot', hle']

/-- A walk either throws at its first share or fills the window as far as the shares reach. -/
theorem processPage_eq {st : RewardState} (hst : Running window pot st) (l : List Share) :
    processPage handler window pot st l =
      match thrown handler window pot st.accumulatedScore l with
      | some e => .error e
      | none => .ok (fill handler window pot st l) := by
  induction l generalizing st with
  | nil =>
      have hnil : fill handler window pot st [] = st := by
        obtain ⟨hdone, _, hrem⟩ := hst
        cases st
        simp only at hdone hrem
        simp [fill, cappedParts, hdone, hrem]
      simp [processPage, thrown, hnil]
  | cons share l ih =>
      rw [processPage, if_neg (by simp [hst.not_done])]
      by_cases hw : window = 0
      · simp [processShare, thrown, hw]
      · by_cases hc : window ≤ st.accumulatedScore + score handler share
        · rw [processShare_crosses hst hw hc l]
          have hdone : (fill handler window pot st (share :: l)).done = true := by
            simp [fill, Scan.stops_cons, hc]
          simp only [processPage_done hdone, thrown, hw, not_lt.mpr hc, and_false, if_false]
        · by_cases hp : 0 < pot
          · obtain ⟨st', hstep, hst', hacc, hfill⟩ := processShare_below hst hp (not_le.mp hc)
            have hnone : thrown handler window pot st'.accumulatedScore l = none := by
              cases l <;> simp [thrown, hw, not_le.mpr hp]
            have hnone' : thrown handler window pot st.accumulatedScore (share :: l) = none := by
              simp [thrown, hw, not_le.mpr hp]
            simp only [hstep, ih hst', hnone, hnone', hfill]
          · rw [processShare_overflow hst (not_lt.mp hp) (not_le.mp hc)]
            simp only [thrown, hw, not_lt.mp hp, not_le.mp hc, and_self, if_true, if_false]

theorem processPage_eq_ok_iff {st st' : RewardState} (hst : Running window pot st)
    {l : List Share} :
    processPage handler window pot st l = .ok st' ↔
      thrown handler window pot st.accumulatedScore l = none ∧
        fill handler window pot st l = st' := by
  rw [processPage_eq hst]
  cases thrown handler window pot st.accumulatedScore l <;> simp

/-- A page loop that ends has filled the window from the pages it has read, which are all of them
unless the token is cancelled. -/
theorem fill_of_readPages_ok {ct : CancellationToken} {shares : List Share} {poolId : String}
    {pageSize now n : Nat} {before : DateTime} {inclusive : Bool} {st st' : RewardState}
    (hs : 0 < pageSize) (hst : Running window pot st)
    (h : PageLoop.readPages (processPage handler window pot) RewardState.done ct shares poolId
      pageSize now before inclusive st = .ok (st', n)) :
    ∃ k, (ct = .none → k = (sharePages shares poolId before inclusive pageSize).length) ∧
      fill handler window pot st
        ((sharePages shares poolId before inclusive pageSize).take k).flatten = st' := by
  rcases PageLoop.readPages_ok hs h with hall | ⟨k, hk, hseen, hproc, _⟩
  · rw [foldPages_processPage] at hall
    refine ⟨_, fun _ => rfl, ?_⟩
    rw [List.take_length]
    exact ((processPage_eq_ok_iff hst).mp hall).2
  · rw [foldPages_processPage] at hproc
    refine ⟨k, ?_, ((processPage_eq_ok_iff hst).mp hproc).2⟩
    rintro rfl
    cases hseen.1

end WindowCalculation

end Miningcore
