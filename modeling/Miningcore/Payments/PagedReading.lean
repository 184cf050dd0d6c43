import Miningcore.Payments.PaymentSchemes.PPLNS
import Miningcore.Payments.PaymentSchemes.PROPRewards

/-!
# Paged reading against one pass

The calculations go on strictly before the creation time of the last share of a
full page. Shares with that creation time on the next page are never read, so
the paged calculation is the calculation in one pass exactly when no page the
calculation goes past ends inside such a group.
-/

namespace Miningcore

open Foundation WindowCalculation

/-- What a calculation leaves: rewards, cutoff, and the rows it was made from. -/
abbrev Outcome := Dictionary String ℚ × Option DateTime × List Share

def RewardState.outcome (st : RewardState) : Outcome :=
  (st.rewards, st.shareCutOffDate, st.processed)

/-- The shares of a block up to its creation, newest first. -/
def blockShares (shares : List Share) (poolId : String) (block : Block) : List Share :=
  sharesBefore shares poolId block.created true

theorem descending_blockShares (shares : List Share) (poolId : String) (block : Block) :
    Descending Share.created (blockShares shares poolId block) :=
  descending_sharesBefore _ _ _ _

namespace PPLNSPaymentScheme

variable (handler : PayoutHandler) (window blockReward : ℚ)

/-- The calculation over the whole list of shares in one descending pass. -/
def unpagedRewards (pool : PoolConfig) (block : Block) (shares : List Share) :
    Except Exception RewardState :=
  processPage handler window blockReward (start blockReward) (blockShares shares pool.id block)

/-- The paged calculation ends like the one pass, from the same rows. -/
def PagedEquivalent (pageSize : Nat) (pool : PoolConfig) (now : Nat) (block : Block)
    (shares : List Share) : Prop :=
  (calculateRewards pageSize handler pool .none now window block blockReward shares).map
      (fun result => result.1.outcome) =
    (unpagedRewards handler window blockReward pool block shares).map RewardState.outcome

/-- The first share of the block makes the calculation throw. -/
def ThrowsAtFirst (shares : List Share) : Prop :=
  ∃ share, shares.head? = some share ∧
    (window = 0 ∨ (blockReward ≤ 0 ∧ score handler share < window))

/-- No page the calculation goes past ends between two shares of one creation time. -/
def KeepsTies (pageSize : Nat) (shares : List Share) : Prop :=
  ∀ k, 1 ≤ k → ((shares.take (k * pageSize)).map (score handler)).sum < window →
    ¬SplitsTie Share.created shares (k * pageSize)

variable {handler window blockReward}

theorem thrown_ne_none_iff {l : List Share} :
    thrown handler window blockReward 0 l ≠ none ↔ ThrowsAtFirst handler window blockReward l := by
  cases l with
  | nil => simp [thrown, ThrowsAtFirst]
  | cons share l =>
      simp only [thrown, ThrowsAtFirst, List.head?_cons, Option.some.injEq, exists_eq_left',
        zero_add]
      by_cases hw : window = 0
      · simp [hw]
      · by_cases ht : blockReward ≤ 0 ∧ score handler share < window <;> simp [hw, ht]

theorem keepsTies_iff {pageSize : Nat} (hs : 0 < pageSize) {shares : List Share} :
    KeepsTies handler window pageSize shares ↔
      ∀ k, 1 ≤ k → (windowScan handler window).stops 0 (shares.take (k * pageSize)) = false →
        ¬SplitsTie Share.created shares (k * pageSize) := by
  refine forall₂_congr fun k hk => ?_
  have hcut : k * pageSize ≠ 0 := (Nat.mul_pos hk hs).ne'
  rw [stops_windowScan_eq_false]
  constructor
  · rintro hties (hnil | hlt)
    · rcases List.take_eq_nil_iff.mp hnil with hzero | rfl
      · exact absurd hzero hcut
      · exact not_splitsTie_of_length_le (Nat.zero_le _)
    · exact hties hlt
  · exact fun hties hlt => hties (Or.inr hlt)

theorem outcome_calculateRewards {pageSize : Nat} (hs : 0 < pageSize) {pool : PoolConfig}
    {now : Nat} {block : Block} {shares : List Share} :
    (calculateRewards pageSize handler pool .none now window block blockReward shares).map
        (fun result => result.1.outcome) =
      (processPage handler window blockReward (start blockReward)
        (blockPages shares pool.id block pageSize).flatten).map RewardState.outcome := by
  have hread := PageLoop.readPages_none (processPage handler window blockReward) RewardState.done
    shares pool.id hs now block.created true (start blockReward)
  rw [foldPages_processPage] at hread
  rw [blockPages, ← hread, calculateRewards]
  cases PageLoop.readPages (processPage handler window blockReward) RewardState.done .none shares
    pool.id pageSize now block.created true (start blockReward) <;> rfl

/-- The paged PPLNS calculation is the calculation in one pass exactly when it throws at its first
share or splits no tie. -/
theorem pagedEquivalent_iff {pageSize : Nat} (hs : 0 < pageSize) {pool : PoolConfig} {now : Nat}
    {block : Block} {shares : List Share} :
    PagedEquivalent handler window blockReward pageSize pool now block shares ↔
      ThrowsAtFirst handler window blockReward (blockShares shares pool.id block) ∨
        KeepsTies handler window pageSize (blockShares shares pool.id block) := by
  have hhead : (blockPages shares pool.id block pageSize).flatten.head? =
      (blockShares shares pool.id block).head? := head?_flatten_keysetPages Share.created hs _
  rw [keepsTies_iff hs, ← consume_keysetPages_eq_iff hs (windowScan handler window) 0
    (descending_blockShares shares pool.id block), ← thrown_ne_none_iff, PagedEquivalent,
    outcome_calculateRewards hs, unpagedRewards, processPage_eq (running_start _ _),
    processPage_eq (running_start _ _), thrown_congr hhead]
  cases ht : thrown handler window blockReward (start blockReward).accumulatedScore
      (blockShares shares pool.id block) with
  | some e =>
      have hthrown : thrown handler window blockReward 0 (blockShares shares pool.id block) ≠
          none := by
        rw [show thrown handler window blockReward 0 _ = some e from ht]
        exact Option.some_ne_none e
      exact iff_of_true rfl (Or.inl hthrown)
  | none =>
      have hnone : ¬thrown handler window blockReward 0 (blockShares shares pool.id block) ≠
          none := not_not.mpr ht
      rw [or_iff_right hnone]
      constructor
      · intro heq
        have hprocessed : (fill handler window blockReward (start blockReward)
            (blockPages shares pool.id block pageSize).flatten).processed =
            (fill handler window blockReward (start blockReward)
              (blockShares shares pool.id block)).processed := by
          injection heq with heq
          exact congrArg (fun outcome : Outcome => outcome.2.2) heq
        exact hprocessed
      · intro hconsume
        exact congrArg (fun st => Except.ok (RewardState.outcome st)) (fill_congr hconsume)

end PPLNSPaymentScheme

namespace PROPPaymentScheme

variable (handler : PayoutHandler) (blockReward : ℚ)

/-- What a calculation makes of its scores. -/
def outcome (blockReward : ℚ) (st : ScoreState) : Except Exception Outcome :=
  (finish blockReward st).map fun calculation =>
    (calculation.rewards, calculation.shareCutOffDate, st.processed)

/-- The calculation over the whole list of shares in one descending pass. -/
def unpagedRewards (pool : PoolConfig) (block : Block) (shares : List Share) :
    Except Exception Outcome :=
  outcome blockReward
    { gather handler (blockShares shares pool.id block) with done := true }

/-- The paged calculation ends like the one pass, from the same rows. -/
def PagedEquivalent (pageSize : Nat) (pool : PoolConfig) (now : Nat) (block : Block)
    (shares : List Share) : Prop :=
  (calculateRewards handler pageSize pool .none now block blockReward shares).map
      (fun result => (result.2.1.rewards, result.2.1.shareCutOffDate, result.1.processed)) =
    unpagedRewards handler blockReward pool block shares

variable {handler blockReward}

theorem outcome_calculateRewards {pageSize : Nat} (hs : 0 < pageSize) {pool : PoolConfig}
    {now : Nat} {block : Block} {shares : List Share} :
    (calculateRewards handler pageSize pool .none now block blockReward shares).map
        (fun result => (result.2.1.rewards, result.2.1.shareCutOffDate, result.1.processed)) =
      outcome blockReward
        { gather handler (blockPages shares pool.id block pageSize).flatten with
          done := true } := by
  obtain ⟨n, hread⟩ := exists_readScores_none handler pool now block shares hs
  rw [calculateRewards, hread, outcome]
  dsimp only
  cases finish blockReward
    { gather handler (blockPages shares pool.id block pageSize).flatten with done := true } <;> rfl

theorem outcome_gather (handler : PayoutHandler) (blockReward : ℚ) (l : List Share) :
    ∃ rewards cutoff, outcome blockReward { gather handler l with done := true } =
      .ok (rewards, cutoff, l) := by
  have hgathered := (gathered handler l).done true
  have hfinish := (finish_eq_ok_iff blockReward hgathered).mpr ⟨Or.inl rfl, rfl⟩
  refine ⟨(distribute blockReward { gather handler l with done := true }).1,
    (gather handler l).shareCutOffDate, ?_⟩
  rw [outcome, hfinish, hgathered.processed]
  rfl

/-- The paged PROP calculation is the calculation in one pass exactly when no full page ends
between two shares of one creation time. -/
theorem pagedEquivalent_iff {pageSize : Nat} (hs : 0 < pageSize) {pool : PoolConfig} {now : Nat}
    {block : Block} {shares : List Share} :
    PagedEquivalent handler blockReward pageSize pool now block shares ↔
      ∀ k, 1 ≤ k → ¬SplitsTie Share.created (blockShares shares pool.id block) (k * pageSize) := by
  rw [← flatten_keysetPages_eq_iff hs (descending_blockShares shares pool.id block),
    PagedEquivalent, outcome_calculateRewards hs, unpagedRewards]
  constructor
  · intro heq
    obtain ⟨rewards₁, cutoff₁, h₁⟩ := outcome_gather handler blockReward
      (blockPages shares pool.id block pageSize).flatten
    obtain ⟨rewards₂, cutoff₂, h₂⟩ := outcome_gather handler blockReward
      (blockShares shares pool.id block)
    rw [h₁, h₂] at heq
    injection heq with heq
    exact congrArg (fun outcome : Outcome => outcome.2.2) heq
  · intro heq
    rw [blockPages, sharePages]
    exact congrArg (fun l => outcome blockReward { gather handler l with done := true }) heq

end PROPPaymentScheme

/-- A share of a millionth of the network difficulty. -/
def smallShare (rowId : Nat) : Share :=
  { Share.unit rowId "a" 5 with
    networkDifficulty := 1000000
    networkDifficulty_pos := by norm_num }

end Miningcore
