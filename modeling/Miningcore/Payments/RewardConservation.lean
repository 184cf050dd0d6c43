import Miningcore.Payments.PaymentSchemes.PPLNS
import Miningcore.Payments.PaymentSchemes.PROPRewards
import Miningcore.Payments.PayoutManager

/-!
# Conservation of the block reward

The recipients and the payment scheme together credit at most the reward of a
block, as long as the recipients and the finder share do not take more than
there is.
-/

namespace Miningcore

open Foundation WindowCalculation PayoutHandlerBase

/-- The scores of the first pages a calculation for a block reads. -/
def scoreOfPages (handler : PayoutHandler) (pages : List (List Share)) (k : Nat) : ℚ :=
  ((pages.take k).flatten.map (score handler)).sum

/-- Recipients and scheme credit nonnegative amounts, the scheme exactly the given total, and both
together at most the reward of the block. -/
def Distributes (pool : PoolConfig) (block : Block) (db db' : Database) (total : ℚ) : Prop :=
  ∃ credits, db'.credits = db.credits ++ (recipientCredits pool block ++ credits) ∧
    (∀ credit ∈ recipientCredits pool block ++ credits, 0 ≤ credit.2) ∧
    creditTotal credits = total ∧
    creditTotal (recipientCredits pool block ++ credits) ≤ block.reward

variable {handler : PayoutHandler} {pool : PoolConfig} {block : Block} {db : Database}

theorem recipientAmount_nonneg (hreward : 0 ≤ block.reward) {recipient : RewardRecipient}
    (h : recipient ∈ activeRecipients pool) : 0 ≤ recipientAmount block recipient := by
  have hpos : 0 < recipient.percentage := by simpa using (List.mem_filter.mp h).2
  exact mul_nonneg hreward (div_nonneg hpos.le (by norm_num))

theorem recipientCredits_nonneg (hreward : 0 ≤ block.reward) :
    ∀ credit ∈ recipientCredits pool block, 0 ≤ credit.2 := by
  intro credit hcredit
  obtain ⟨recipient, hrecipient, rfl⟩ := List.mem_map.mp hcredit
  exact recipientAmount_nonneg hreward (List.mem_of_mem_filter hrecipient)

/-- What the recipients are credited was deducted from the reward. -/
theorem creditTotal_recipientCredits_le (pool : PoolConfig) (hreward : 0 ≤ block.reward)
    (hreserve : 0 ≤ handler.staticTransactionFeeReserve) :
    creditTotal (recipientCredits pool block) + blockRewardRemaining handler pool block ≤
      block.reward := by
  have hsub : creditTotal (recipientCredits pool block) ≤
      ((activeRecipients pool).map (recipientAmount block)).sum := by
    rw [creditTotal, recipientCredits, List.map_map]
    apply List.Sublist.sum_le_sum
    · exact List.Sublist.map _ List.filter_sublist
    · intro amount hamount
      obtain ⟨recipient, hrecipient, rfl⟩ := List.mem_map.mp hamount
      exact recipientAmount_nonneg hreward hrecipient
  calc creditTotal (recipientCredits pool block) + blockRewardRemaining handler pool block
      ≤ ((activeRecipients pool).map (recipientAmount block)).sum +
          blockRewardRemaining handler pool block := add_le_add_left hsub _
    _ = block.reward - handler.staticTransactionFeeReserve := by
        rw [blockRewardRemaining]
        ring
    _ ≤ block.reward := sub_le_self _ hreserve

theorem distributes_of_settled (hreward : 0 ≤ block.reward)
    (hreserve : 0 ≤ handler.staticTransactionFeeReserve) {db' : Database}
    {calculation : Calculation}
    (h : Settled pool.id (updateBlockRewardBalances handler pool db block).1 db' calculation)
    (hvalues : ∀ e ∈ calculation.rewards.entries, 0 ≤ e.2)
    (htotal : calculation.rewards.total ≤ blockRewardRemaining handler pool block) :
    Distributes pool block db db' calculation.rewards.total := by
  have hsum : creditTotal (calculation.rewards.entries.filter fun entry => 0 < entry.2) =
      calculation.rewards.total := creditTotal_filter hvalues
  refine ⟨calculation.rewards.entries.filter fun entry => 0 < entry.2, ?_, ?_, hsum, ?_⟩
  · rw [h.credits, credits_updateBlockRewardBalances, List.append_assoc]
  · intro credit hcredit
    rcases List.mem_append.mp hcredit with hrecipient | hscheme
    · exact recipientCredits_nonneg hreward credit hrecipient
    · exact hvalues credit (List.mem_of_mem_filter hscheme)
  · have hle := creditTotal_recipientCredits_le pool hreward hreserve
    rw [creditTotal_append, hsum]
    linarith

/-- Recipients and scheme one after the other, as in the transaction of a confirmed block. -/
def distributeBlockReward (scheme : PayoutScheme) (handler : PayoutHandler) (pool : PoolConfig)
    (ct : CancellationToken) (now : Nat) (block : Block) (db : Database) :
    Except Exception (Database × Nat) :=
  scheme handler pool ct now block (updateBlockRewardBalances handler pool db block).2
    (updateBlockRewardBalances handler pool db block).1

/-- The part of a positive window that a score fills is between nothing and all of a pot. -/
theorem windowPart_mem {score window pot : ℚ} (hs : 0 ≤ score) (hw : 0 < window) (hp : 0 ≤ pot) :
    0 ≤ min score window * pot / window ∧ min score window * pot / window ≤ pot := by
  constructor
  · exact div_nonneg (mul_nonneg (le_min hs hw.le) hp) hw.le
  · calc min score window * pot / window
        ≤ window * pot / window := by gcongr; exact min_le_right score window
      _ = pot := mul_div_cancel_left₀ pot hw.ne'

theorem scoreOfPages_nonneg (handler : PayoutHandler) (pages : List (List Share)) (k : Nat) :
    0 ≤ scoreOfPages handler pages k := by
  apply List.sum_nonneg
  intro x hx
  obtain ⟨share, _, rfl⟩ := List.mem_map.mp hx
  exact score_nonneg handler share

variable {ct : CancellationToken} {now : Nat} {result : Database × Nat}

/-- PPLNS hands out the part of the remaining reward that the scores fill of the window. -/
theorem distributes_PPLNS (hreward : 0 ≤ block.reward)
    (hreserve : 0 ≤ handler.staticTransactionFeeReserve)
    (hremaining : 0 ≤ blockRewardRemaining handler pool block) (hfactor : 0 < windowFactor pool)
    (h : distributeBlockReward PPLNSPaymentScheme.updateBalances handler pool ct now block db =
      .ok result) :
    ∃ k, (ct = .none →
        k = (blockPages db.shares pool.id block PPLNSPaymentScheme.pageSize).length) ∧
      Distributes pool block db result.1
        (min (scoreOfPages handler
            (blockPages db.shares pool.id block PPLNSPaymentScheme.pageSize) k)
          (windowFactor pool) * blockRewardRemaining handler pool block / windowFactor pool) := by
  obtain ⟨st, n, hcalc, hsettled⟩ := PPLNSPaymentScheme.updateBalances_ok h
  rw [PPLNSPaymentScheme.calculateRewards, updateBlockRewardBalances_snd,
    (onlyCredits_updateBlockRewardBalances handler pool db block).shares] at hcalc
  obtain ⟨k, hk, rfl⟩ := fill_of_readPages_ok (by decide)
    (PPLNSPaymentScheme.running_start _ _) hcalc
  have hempty : ∀ e ∈ (PPLNSPaymentScheme.start
      (blockRewardRemaining handler pool block)).rewards.entries, (0 : ℚ) ≤ e.2 := by
    intro e he
    cases he
  have htotal := total_rewards_fill handler hfactor hremaining
    (PPLNSPaymentScheme.start (blockRewardRemaining handler pool block)) hfactor.le
    ((blockPages db.shares pool.id block PPLNSPaymentScheme.pageSize).take k).flatten
  have hpart := windowPart_mem (scoreOfPages_nonneg handler
    (blockPages db.shares pool.id block PPLNSPaymentScheme.pageSize) k) hfactor hremaining
  simp only [PPLNSPaymentScheme.start, Dictionary.total_empty, zero_add, sub_zero] at htotal
  refine ⟨k, hk, ?_⟩
  rw [scoreOfPages, ← htotal] at hpart ⊢
  exact distributes_of_settled hreward hreserve hsettled (values_fill hempty _) hpart.2

/-- An uncancelled PPLNS settlement of a positive reward ends. -/
theorem exists_distribute_PPLNS (now : Nat) (db : Database)
    (hremaining : 0 < blockRewardRemaining handler pool block) (hfactor : 0 < windowFactor pool) :
    ∃ result, distributeBlockReward PPLNSPaymentScheme.updateBalances handler pool .none now block
      db = .ok result := by
  apply PPLNSPaymentScheme.exists_updateBalances_none
  rw [updateBlockRewardBalances_snd]
  exact thrown_eq_none hfactor hremaining 0 _

/-- PROP hands out the remaining reward as soon as there is a score to share it by. -/
theorem distributes_PROP (hreward : 0 ≤ block.reward)
    (hreserve : 0 ≤ handler.staticTransactionFeeReserve)
    (hremaining : 0 ≤ blockRewardRemaining handler pool block)
    (h : distributeBlockReward PROPPaymentScheme.updateBalances handler pool ct now block db =
      .ok result) :
    ∃ k, (ct = .none →
        k = (blockPages db.shares pool.id block PROPPaymentScheme.pageSize).length) ∧
      Distributes pool block db result.1
        (if 0 < scoreOfPages handler
            (blockPages db.shares pool.id block PROPPaymentScheme.pageSize) k
          then blockRewardRemaining handler pool block else 0) := by
  obtain ⟨st, n, calculation, hread, hfinish, hsettled⟩ := PROPPaymentScheme.updateBalances_ok h
  rw [(onlyCredits_updateBlockRewardBalances handler pool db block).shares] at hread
  rw [updateBlockRewardBalances_snd] at hfinish
  obtain ⟨k, hk, hgathered, _⟩ := PROPPaymentScheme.gathered_of_readScores_ok (by decide) hread
  obtain ⟨_, rfl⟩ := (PROPPaymentScheme.finish_eq_ok_iff _ hgathered).mp hfinish
  have htotal := PROPPaymentScheme.total_distribute hgathered hremaining
  refine ⟨k, hk, ?_⟩
  rw [scoreOfPages, ← hgathered.score, ← htotal]
  refine distributes_of_settled hreward hreserve hsettled
    (PROPPaymentScheme.values_distribute _ st) (htotal.trans_le ?_)
  split
  · exact le_rfl
  · exact hremaining

/-- The variant with a finder share hands out that share, and PPLNS of the rest. -/
theorem distributes_PPLNSBF (hreward : 0 ≤ block.reward)
    (hreserve : 0 ≤ handler.staticTransactionFeeReserve)
    (hremaining : 0 ≤ blockRewardRemaining handler pool block) (hfactor : 0 < windowFactor pool)
    (hfinder : 0 ≤ PPLNSBFPaymentScheme.blockFinderPercentage pool)
    (hfinder' : PPLNSBFPaymentScheme.blockFinderPercentage pool ≤ 100)
    (h : distributeBlockReward PPLNSBFPaymentScheme.updateBalances handler pool ct now block db =
      .ok result) :
    ∃ k, (ct = .none →
        k = (blockPages db.shares pool.id block PPLNSBFPaymentScheme.pageSize).length) ∧
      Distributes pool block db result.1
        (PPLNSBFPaymentScheme.blockFinderReward pool (blockRewardRemaining handler pool block) +
          min (scoreOfPages handler
              (blockPages db.shares pool.id block PPLNSBFPaymentScheme.pageSize) k)
            (windowFactor pool) *
          (blockRewardRemaining handler pool block -
            PPLNSBFPaymentScheme.blockFinderReward pool (blockRewardRemaining handler pool block)) /
          windowFactor pool) := by
  obtain ⟨st, n, hcalc, hsettled⟩ := PPLNSBFPaymentScheme.updateBalances_ok h
  rw [PPLNSBFPaymentScheme.calculateRewards, updateBlockRewardBalances_snd,
    (onlyCredits_updateBlockRewardBalances handler pool db block).shares] at hcalc
  obtain ⟨k, hk, rfl⟩ := fill_of_readPages_ok (by decide)
    (PPLNSBFPaymentScheme.running_start _ _ _ _) hcalc
  have hshare : 0 ≤ PPLNSBFPaymentScheme.blockFinderReward pool
      (blockRewardRemaining handler pool block) :=
    mul_nonneg hremaining (div_nonneg hfinder (by norm_num))
  have hrest : 0 ≤ blockRewardRemaining handler pool block -
      PPLNSBFPaymentScheme.blockFinderReward pool (blockRewardRemaining handler pool block) := by
    rw [sub_nonneg, PPLNSBFPaymentScheme.blockFinderReward]
    exact mul_le_of_le_one_right hremaining (div_le_one_of_le₀ hfinder' (by norm_num))
  have hstart : ∀ e ∈ (PPLNSBFPaymentScheme.start pool block
      (blockRewardRemaining handler pool block)).rewards.entries, (0 : ℚ) ≤ e.2 := by
    intro e he
    rw [List.mem_singleton.mp he]
    exact hshare
  have htotal := total_rewards_fill handler hfactor hrest
    (PPLNSBFPaymentScheme.start pool block (blockRewardRemaining handler pool block))
    hfactor.le
    ((blockPages db.shares pool.id block PPLNSBFPaymentScheme.pageSize).take k).flatten
  have hpart := windowPart_mem (scoreOfPages_nonneg handler
    (blockPages db.shares pool.id block PPLNSBFPaymentScheme.pageSize) k) hfactor hrest
  simp only [PPLNSBFPaymentScheme.start, Dictionary.total_singleton, zero_add, sub_zero] at htotal
  refine ⟨k, hk, ?_⟩
  rw [scoreOfPages] at hpart ⊢
  rw [← htotal]
  refine distributes_of_settled hreward hreserve hsettled (values_fill hstart _)
    (htotal.trans_le ?_)
  linarith [hpart.2]

/-- An uncancelled PROP settlement ends. -/
theorem exists_distribute_PROP (handler : PayoutHandler) (pool : PoolConfig) (now : Nat)
    (block : Block) (db : Database) :
    ∃ result, distributeBlockReward PROPPaymentScheme.updateBalances handler pool .none now block
      db = .ok result :=
  PROPPaymentScheme.exists_updateBalances handler pool now block _ _

/-- Conservation of the block reward, scheme by scheme. -/
theorem blockReward_conserved (handler : PayoutHandler) (pool : PoolConfig)
    (ct : CancellationToken) (now : Nat) (block : Block) (db : Database)
    (hreward : 0 ≤ block.reward) (hreserve : 0 ≤ handler.staticTransactionFeeReserve)
    (hremaining : 0 ≤ blockRewardRemaining handler pool block) (hfactor : 0 < windowFactor pool) :
    let remaining := blockRewardRemaining handler pool block
    let window := windowFactor pool
    -- PPLNS
    (∀ result, distributeBlockReward PPLNSPaymentScheme.updateBalances handler pool ct now block
          db = .ok result →
        ∃ k, (ct = .none →
            k = (blockPages db.shares pool.id block PPLNSPaymentScheme.pageSize).length) ∧
          Distributes pool block db result.1
            (min (scoreOfPages handler
              (blockPages db.shares pool.id block PPLNSPaymentScheme.pageSize) k) window *
              remaining / window)) ∧
    (0 < remaining → ∃ result, distributeBlockReward PPLNSPaymentScheme.updateBalances handler pool
      .none now block db = .ok result) ∧
    -- PROP
    (∀ result, distributeBlockReward PROPPaymentScheme.updateBalances handler pool ct now block
          db = .ok result →
        ∃ k, (ct = .none →
            k = (blockPages db.shares pool.id block PROPPaymentScheme.pageSize).length) ∧
          Distributes pool block db result.1
            (if 0 < scoreOfPages handler
                (blockPages db.shares pool.id block PROPPaymentScheme.pageSize) k
              then remaining else 0)) ∧
    (∃ result, distributeBlockReward PROPPaymentScheme.updateBalances handler pool .none now block
      db = .ok result) ∧
    -- PPLNSBF
    (0 ≤ PPLNSBFPaymentScheme.blockFinderPercentage pool →
      PPLNSBFPaymentScheme.blockFinderPercentage pool ≤ 100 →
      ∀ result, distributeBlockReward PPLNSBFPaymentScheme.updateBalances handler pool ct now block
          db = .ok result →
        ∃ k, (ct = .none →
            k = (blockPages db.shares pool.id block PPLNSBFPaymentScheme.pageSize).length) ∧
          Distributes pool block db result.1
            (PPLNSBFPaymentScheme.blockFinderReward pool remaining +
              min (scoreOfPages handler
                (blockPages db.shares pool.id block PPLNSBFPaymentScheme.pageSize) k) window *
              (remaining - PPLNSBFPaymentScheme.blockFinderReward pool remaining) / window)) :=
  ⟨fun _ h => distributes_PPLNS hreward hreserve hremaining hfactor h,
    fun hpos => exists_distribute_PPLNS now db hpos hfactor,
    fun _ h => distributes_PROP hreward hreserve hremaining h,
    exists_distribute_PROP handler pool now block db,
    fun h₀ h₁ _ h => distributes_PPLNSBF hreward hreserve hremaining hfactor h₀ h₁ h⟩

/-- One share of half a window earns half of what a recipient with one percent leaves. -/
theorem blockReward_conserved_half_window :
    ∃ result, distributeBlockReward PPLNSPaymentScheme.updateBalances .base
        { id := "pool", address := "wallet", rewardRecipients := [⟨"fee", 1⟩] } .none 0
        { id := 1, poolId := "pool", blockHeight := 1, miner := "a", reward := 10, created := 5 }
        { shares := [.unit 1 "a" 5] } = .ok result ∧
      Distributes { id := "pool", address := "wallet", rewardRecipients := [⟨"fee", 1⟩] }
        { id := 1, poolId := "pool", blockHeight := 1, miner := "a", reward := 10, created := 5 }
        { shares := [.unit 1 "a" 5] } result.1 (99 / 20) := by
  have hpages : sharePages [.unit 1 "a" 5] "pool" 5 true PPLNSPaymentScheme.pageSize =
      [[.unit 1 "a" 5]] := sharePages_of_lt (by decide)
  have hremaining : blockRewardRemaining .base
      { id := "pool", address := "wallet", rewardRecipients := [⟨"fee", 1⟩] }
      { id := 1, poolId := "pool", blockHeight := 1, miner := "a", reward := 10, created := 5 } =
        99 / 10 := by
    norm_num [blockRewardRemaining, activeRecipients, recipientAmount, PayoutHandler.base]
  obtain ⟨hall, hexists, _⟩ := blockReward_conserved .base
    { id := "pool", address := "wallet", rewardRecipients := [⟨"fee", 1⟩] } .none 0
    { id := 1, poolId := "pool", blockHeight := 1, miner := "a", reward := 10, created := 5 }
    { shares := [.unit 1 "a" 5] } (by norm_num) le_rfl (by rw [hremaining]; norm_num)
    (by norm_num [windowFactor])
  obtain ⟨result, hok⟩ := hexists (by rw [hremaining]; norm_num)
  obtain ⟨k, hk, hdistributes⟩ := hall result hok
  refine ⟨result, hok, ?_⟩
  rw [hk rfl, hremaining, blockPages, hpages] at hdistributes
  convert hdistributes using 1
  norm_num [scoreOfPages, windowFactor, score, PayoutHandler.base, Share.unit]

/-- A configuration may name a finder share of more than the whole: with 150 percent, and a share
that fills the window, a block of 10 credits 15 to its finder. -/
theorem not_blockReward_conserved_finder_percentage :
    ∃ result, distributeBlockReward PPLNSBFPaymentScheme.updateBalances .base
        { id := "pool", address := "wallet",
          payoutSchemeConfig := some { factor := 1, blockFinderPercentage := 150 } } .none 0
        { id := 1, poolId := "pool", blockHeight := 1, miner := "a", reward := 10, created := 5 }
        { shares := [.unit 1 "a" 5] } = .ok result ∧
      ¬creditTotal result.1.credits ≤ 10 := by
  have hpages : sharePages [.unit 1 "a" 5] "pool" 5 true PPLNSBFPaymentScheme.pageSize =
      [[.unit 1 "a" 5]] := sharePages_of_lt (by decide)
  have hremaining : blockRewardRemaining .base
      { id := "pool", address := "wallet",
        payoutSchemeConfig := some { factor := 1, blockFinderPercentage := 150 } }
      { id := 1, poolId := "pool", blockHeight := 1, miner := "a", reward := 10, created := 5 } =
        10 := by
    norm_num [blockRewardRemaining, activeRecipients, PayoutHandler.base]
  obtain ⟨result, hok, hcredits⟩ := PPLNSBFPaymentScheme.exists_updateBalances_none .base
    { id := "pool", address := "wallet",
      payoutSchemeConfig := some { factor := 1, blockFinderPercentage := 150 } } 0
    { id := 1, poolId := "pool", blockHeight := 1, miner := "a", reward := 10, created := 5 } 10
    { shares := [.unit 1 "a" 5] }
    (by
      rw [blockPages, hpages]
      norm_num [WindowCalculation.thrown, windowFactor, score, PayoutHandler.base, Share.unit])
    (by
      rw [blockPages, hpages]
      norm_num [Scan.consume, capScan, windowFactor, score, PayoutHandler.base, Share.unit])
  refine ⟨result, ?_, ?_⟩
  · rw [distributeBlockReward, updateBlockRewardBalances_snd, hremaining]
    exact hok
  · rw [hcredits, blockPages, hpages]
    norm_num [fill, cappedParts, windowFactor, score, PayoutHandler.base, Share.unit, creditTotal,
      PPLNSBFPaymentScheme.start, PPLNSBFPaymentScheme.blockFinderReward,
      PPLNSBFPaymentScheme.blockFinderPercentage, reward, Database.credits,
      Dictionary.accumulateAll_cons, Dictionary.accumulatePos, recipientCredits, activeRecipients]

end Miningcore
