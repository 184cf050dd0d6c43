import Miningcore.Payments.PaymentSchemes.PROP
import Mathlib.Data.List.Induction

/-!
# Rewards of a PROP round

What the share loop gathers from a list of shares, and what the distribution
makes of it.
-/

namespace Miningcore

open Foundation

namespace PROPPaymentScheme

variable {handler : PayoutHandler}

/-- What holds of the variables after a list of shares. -/
structure Gathered (handler : PayoutHandler) (l : List Share) (st : ScoreState) : Prop where
  score : st.accumulatedScore = (l.map (score handler)).sum
  total : st.scores.total = st.accumulatedScore
  scores_nonneg : ∀ e ∈ st.scores.entries, 0 ≤ e.2
  scores_at : ∀ address, st.scores.amountAt address =
    ((l.filter fun share => share.miner = address).map (Miningcore.score handler)).sum
  keys : ∀ address ∈ st.scores.keys, address ∈ st.shares.keys
  processed : st.processed = l

theorem Gathered.processShare {l : List Share} {st : ScoreState} (h : Gathered handler l st)
    (share : Share) : Gathered handler (l ++ [share]) (processShare handler st share) where
  score := by
    rw [List.map_append, List.sum_append, ← h.score]
    simp [PROPPaymentScheme.processShare, Miningcore.score]
  total := by
    simp only [PROPPaymentScheme.processShare, Dictionary.total_accumulate, h.total]
  scores_nonneg := by
    have hscore : 0 ≤ handler.adjustShareDifficulty share.difficulty / share.networkDifficulty :=
      score_nonneg handler share
    exact Dictionary.forall_values_accumulate h.scores_nonneg hscore
      fun a ha => add_nonneg ha hscore
  scores_at := by
    intro address
    rw [List.filter_append, List.map_append, List.sum_append, ← h.scores_at address]
    simp only [PROPPaymentScheme.processShare, Dictionary.amountAt_accumulate]
    by_cases hminer : share.miner = address <;> simp [hminer, Miningcore.score]
  keys := by
    intro address hmem
    simp only [PROPPaymentScheme.processShare, Dictionary.mem_keys_accumulate] at hmem ⊢
    exact hmem.imp_right (h.keys address)
  processed := by
    simp [PROPPaymentScheme.processShare, h.processed]

theorem gathered (handler : PayoutHandler) (l : List Share) :
    Gathered handler l (gather handler l) := by
  induction l using List.reverseRecOn with
  | nil =>
      refine ⟨rfl, rfl, ?_, fun address => rfl, ?_, rfl⟩
      · intro e he
        cases he
      · intro address hmem
        cases hmem
  | append_singleton l share ih =>
      rw [gather_concat]
      exact ih.processShare share

/-- The cutoff of shares read newest first is the creation time of the first one. -/
theorem shareCutOffDate_gather {l : List Share} (h : Descending Share.created l) :
    (gather handler l).shareCutOffDate = l.head?.map Share.created := by
  induction l using List.reverseRecOn with
  | nil => rfl
  | append_singleton l share ih =>
      have hl : Descending Share.created l := (List.pairwise_append.mp h).1
      rw [gather_concat]
      cases l with
      | nil => rfl
      | cons first l =>
          have hle : share.created ≤ first.created :=
            h.append_le List.mem_cons_self (List.mem_singleton_self share)
          simp [processShare, ih hl, hle.not_gt]

/-! ## The distribution -/

/-- The reward of a score. -/
def rewardOf (rewardPerScorePoint : ℚ) (score : String × ℚ) : String × ℚ :=
  (score.1, score.2 * rewardPerScorePoint)

/-- The nested loop visits every score once. -/
theorem buildRewards_eq (rate : ℚ) (scores : Dictionary String ℚ)
    (acc : Dictionary String ℚ × ℚ) :
    buildRewards rate scores acc = scores.entries.foldl (addScore rate) acc := by
  rw [buildRewards, Dictionary.eraseDups_keys, Dictionary.keys, List.foldl_map]
  apply List.foldl_ext
  intro acc score hmem
  rw [scores.filter_key_eq hmem]
  rfl

theorem foldl_addScore (rate : ℚ) (entries : List (String × ℚ)) (acc : Dictionary String ℚ × ℚ) :
    entries.foldl (addScore rate) acc =
      (acc.1.accumulateAll (entries.map (rewardOf rate)),
        acc.2 - ((entries.map (rewardOf rate)).map Prod.snd).sum) := by
  induction entries generalizing acc with
  | nil => simp
  | cons e entries ih =>
      rw [List.foldl_cons, ih]
      simp only [List.map_cons, List.sum_cons, Dictionary.accumulateAll_cons, rewardOf, addScore,
        Dictionary.accumulatePos, sub_sub]

variable {blockReward : ℚ} {st : ScoreState} {l : List Share}

/-- The rewards of a round, by address. -/
def roundRewards (blockReward : ℚ) (st : ScoreState) : List (String × ℚ) :=
  st.scores.entries.map (rewardOf (blockReward / st.accumulatedScore))

theorem distribute_of_pos (hpos : 0 < st.accumulatedScore) :
    distribute blockReward st =
      (Dictionary.empty.accumulateAll (roundRewards blockReward st),
        blockReward - ((roundRewards blockReward st).map Prod.snd).sum) := by
  rw [distribute, if_pos hpos, buildRewards_eq, foldl_addScore]
  rfl

/-- In exact arithmetic the rewards of a round add up to the block reward. -/
theorem sum_roundRewards (h : Gathered handler l st) (hpos : 0 < st.accumulatedScore) :
    ((roundRewards blockReward st).map Prod.snd).sum = blockReward := by
  have hmap : (roundRewards blockReward st).map Prod.snd =
      st.scores.entries.map fun e => e.2 * (blockReward / st.accumulatedScore) := by
    rw [roundRewards, List.map_map]
    rfl
  calc ((roundRewards blockReward st).map Prod.snd).sum
      = st.scores.total * (blockReward / st.accumulatedScore) := by
        rw [hmap, List.sum_map_mul_right]
        rfl
    _ = blockReward := by
        rw [h.total, mul_div_cancel₀ _ hpos.ne']

theorem roundRewards_nonneg (h : Gathered handler l st) (hreward : 0 ≤ blockReward)
    (hpos : 0 < st.accumulatedScore) : ∀ e ∈ roundRewards blockReward st, 0 ≤ e.2 := by
  intro e he
  obtain ⟨score, hscore, rfl⟩ := List.mem_map.mp he
  exact mul_nonneg (h.scores_nonneg score hscore) (div_nonneg hreward hpos.le)

/-- Nothing remains of the block reward when there is a score to share it by. -/
theorem distribute_snd (h : Gathered handler l st) :
    (distribute blockReward st).2 = if 0 < st.accumulatedScore then 0 else blockReward := by
  split
  · rename_i hpos
    simp only [distribute_of_pos hpos]
    rw [sum_roundRewards h hpos, sub_self]
  · rename_i hnot
    rw [distribute, if_neg hnot]

theorem total_distribute (h : Gathered handler l st) (hreward : 0 ≤ blockReward) :
    (distribute blockReward st).1.total = if 0 < st.accumulatedScore then blockReward else 0 := by
  split
  · rename_i hpos
    simp only [distribute_of_pos hpos]
    rw [Dictionary.total_accumulateAll_of_nonneg _ (roundRewards_nonneg h hreward hpos),
      sum_roundRewards h hpos, Dictionary.total_empty, zero_add]
  · rename_i hnot
    rw [distribute, if_neg hnot]
    rfl

/-- What a share adds to the reward of its miner. -/
def contribution (handler : PayoutHandler) (blockReward : ℚ) (st : ScoreState)
    (share : Share) : ℚ :=
  score handler share * (blockReward / st.accumulatedScore)

/-- The reward of an address is the sum of what its shares contribute. -/
theorem amountAt_distribute (h : Gathered handler l st) (hreward : 0 ≤ blockReward)
    (hpos : 0 < st.accumulatedScore) (address : String) :
    (distribute blockReward st).1.amountAt address =
      ((l.filter fun share => share.miner = address).map
        (contribution handler blockReward st)).sum := by
  have hentries : (roundRewards blockReward st).filter (fun e => e.1 = address) =
      (st.scores.entries.filter fun e => e.1 = address).map
        (rewardOf (blockReward / st.accumulatedScore)) := by
    rw [roundRewards, List.filter_map]
    rfl
  rw [distribute_of_pos hpos]
  calc (Dictionary.empty.accumulateAll (roundRewards blockReward st)).amountAt address
      = (((roundRewards blockReward st).filter fun e => e.1 = address).map Prod.snd).sum := by
        rw [Dictionary.amountAt_accumulateAll_of_nonneg _ (roundRewards_nonneg h hreward hpos),
          Dictionary.amountAt_empty, zero_add]
    _ = st.scores.amountAt address * (blockReward / st.accumulatedScore) := by
        rw [hentries, List.map_map, Dictionary.amountAt_eq_sum, ← List.sum_map_mul_right]
        rfl
    _ = _ := by
        rw [h.scores_at, ← List.sum_map_mul_right]
        rfl

theorem values_distribute (blockReward : ℚ) (st : ScoreState) :
    ∀ e ∈ (distribute blockReward st).1.entries, 0 ≤ e.2 := by
  have hempty : ∀ e ∈ (Dictionary.empty : Dictionary String ℚ).entries, (0 : ℚ) ≤ e.2 := by
    intro e he
    cases he
  by_cases hpos : 0 < st.accumulatedScore
  · rw [distribute_of_pos hpos]
    exact Dictionary.values_accumulateAll _ hempty
  · rw [distribute, if_neg hpos]
    exact hempty

theorem keys_distribute (h : Gathered handler l st) :
    ∀ address ∈ (distribute blockReward st).1.keys, address ∈ st.shares.keys := by
  intro address hmem
  by_cases hpos : 0 < st.accumulatedScore
  · rw [distribute_of_pos hpos] at hmem
    rcases Dictionary.mem_keys_accumulateAll hmem with hkeys | hrewards
    · cases hkeys
    · rw [roundRewards, List.map_map] at hrewards
      exact h.keys address hrewards
  · rw [distribute, if_neg hpos] at hmem
    cases hmem

/-- A finished calculation passes the guard; an interrupted one only with nothing gathered and
something to distribute. -/
theorem finish_eq_ok_iff (blockReward : ℚ) (h : Gathered handler l st) {calculation : Calculation} :
    finish blockReward st = .ok calculation ↔
      (st.done = true ∨ (¬0 < st.accumulatedScore ∧ 0 < blockReward)) ∧
        ⟨st.shares, (distribute blockReward st).1, st.shareCutOffDate⟩ = calculation := by
  by_cases hpos : 0 < st.accumulatedScore
  · simp only [finish, distribute_snd h, hpos, if_true, le_refl, true_and]
    cases st.done <;> simp
  · simp only [finish, distribute_snd h, hpos, if_false]
    by_cases hreward : 0 < blockReward <;> cases st.done <;>
      simp [hreward, not_le.mpr, not_lt.mp]

/-! ## The update as a whole -/

variable {pool : PoolConfig} {ct : CancellationToken} {now : Nat} {block : Block} {db : Database}

theorem Gathered.done {l : List Share} {st : ScoreState} (h : Gathered handler l st) (b : Bool) :
    Gathered handler l { st with done := b } :=
  ⟨h.score, h.total, h.scores_nonneg, h.scores_at, h.keys, h.processed⟩

/-- A page loop that ends has gathered the scores of the pages it has read, which are all of them
unless the token is cancelled. Its cutoff is the newest creation time read. -/
theorem gathered_of_readScores_ok {pageSize n : Nat} {shares : List Share} {st : ScoreState}
    (hs : 0 < pageSize) (h : readScores handler pageSize pool ct now block shares = .ok (st, n)) :
    ∃ k, (ct = .none → k = (blockPages shares pool.id block pageSize).length) ∧
      Gathered handler ((blockPages shares pool.id block pageSize).take k).flatten st ∧
      st.shareCutOffDate =
        ((blockPages shares pool.id block pageSize).take k).flatten.head?.map Share.created := by
  have hcutoff : ∀ k, (gather handler
      ((blockPages shares pool.id block pageSize).take k).flatten).shareCutOffDate =
        ((blockPages shares pool.id block pageSize).take k).flatten.head?.map Share.created := by
    intro k
    apply shareCutOffDate_gather
    exact (descending_flatten_blockPages shares pool.id block hs).sublist
      (flatten_take_sublist _ k)
  rcases readScores_ok hs h with rfl | ⟨_, k, _, hseen, rfl⟩
  · refine ⟨(blockPages shares pool.id block pageSize).length, fun _ => rfl, ?_, ?_⟩
    · rw [List.take_length]
      exact (gathered handler _).done true
    · rw [← hcutoff, List.take_length]
  · refine ⟨k, ?_, gathered handler _, hcutoff k⟩
    rintro rfl
    cases hseen.1

theorem updateBalances_ok {result : Database × Nat}
    (h : updateBalances handler pool ct now block blockReward db = .ok result) :
    ∃ st n calculation, readScores handler pageSize pool ct now block db.shares = .ok (st, n) ∧
      finish blockReward st = .ok calculation ∧ Settled pool.id db result.1 calculation := by
  rw [updateBalances] at h
  split at h
  · cases h
  · rename_i st calculation n hcalc
    rw [calculateRewards] at hcalc
    split at hcalc
    · cases hcalc
    · rename_i st' n' hread
      split at hcalc
      · cases hcalc
      · rename_i calculation' hfinish
        cases hcalc
        exact ⟨st, n, calculation, hread, hfinish, updateBalancesFrom_ok h⟩

/-- Without a cancellation nothing keeps the update from ending. -/
theorem exists_updateBalances (handler : PayoutHandler) (pool : PoolConfig) (now : Nat)
    (block : Block) (blockReward : ℚ) (db : Database) :
    ∃ result, updateBalances handler pool .none now block blockReward db = .ok result := by
  obtain ⟨n, hread⟩ := exists_readScores_none handler pool now block db.shares pageSize_pos
  have hgathered := (gathered handler
    (blockPages db.shares pool.id block pageSize).flatten).done true
  have hfinish := (finish_eq_ok_iff blockReward hgathered).mpr
    ⟨Or.inl rfl, rfl⟩
  rw [updateBalances, calculateRewards, hread]
  simp only [hfinish]
  exact exists_updateBalancesFrom (by decide) pool block n db (keys_distribute hgathered)
    (Or.inl rfl)

end PROPPaymentScheme

end Miningcore
