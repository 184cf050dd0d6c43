import Mathlib.Tactic.FieldSimp
import Mathlib.Tactic.Linarith
import Mathlib.Tactic.NormNum
import Mathlib.Tactic.Positivity
import Miningcore.Blockchain.Ethereum.BlockRewards

/-!
# Bounds of uncle rewards

On most chains an uncle loses a part of the block reward for every height it is behind, until
nothing is left. The part that remains is a difference of 64-bit heights: an uncle from further
behind does not get nothing, but a huge multiple of the block reward.
-/

namespace Miningcore

namespace EthereumPayoutHandler

def IsClassic (chainType : GethChainType) : Prop := chainType = .classic ∨ chainType = .mordor

/-- The chains whose block reward is known. -/
def IsSupported (chainType : GethChainType) : Prop :=
  chainType ≠ .ropsten ∧ chainType ≠ .unknown

/-- How far behind nothing is left for an uncle, where its reward depends on that. -/
def uncleSpan (chainType : GethChainType) (height : ℕ) : Option ℕ :=
  match chainType with
  | .classic | .mordor => if height / classicEraLength = 0 then some 8 else none
  | .ubiq => some 2
  | .hypra => none
  | _ => some 8

/-- The reward of an uncle where it does not depend on its height. -/
def flatUncleReward (chainType : GethChainType) (reward : ℚ) : ℚ :=
  if chainType = .hypra then 1 / 10 else reward / 32

/-- An uncle gets something between nothing and the reward of a block. -/
def UncleRewardBounded (chainType : GethChainType)
    (uheight height totalDuplicateBlockBefore : ℕ) (maxUncles : ℤ) : Prop :=
  ∃ base reward, getBaseBlockReward chainType height = .ok base ∧
    getUncleReward chainType uheight height totalDuplicateBlockBefore maxUncles = .ok reward ∧
      0 ≤ reward ∧ reward ≤ base

variable {chainType : GethChainType} {uheight height totalDuplicateBlockBefore span : ℕ}
  {maxUncles : ℤ} {base : ℚ}

/-! ### The reward of a block -/

theorem cortexReward_pos {period : ℕ} (hperiod : 0 < period) (height : ℕ) :
    0 < cortexReward period height := by
  rw [cortexReward]
  split
  · rename_i hreached
    have hera : 0 < height / period := Nat.div_pos hreached hperiod
    positivity
  · norm_num

theorem baseBlockReward_pos (h : getBaseBlockReward chainType height = .ok base) : 0 < base := by
  have hfork : ∀ {forks : List (ℕ × ℚ)} {initial : ℚ}, (∀ fork ∈ forks, 1 ≤ fork.2) →
      1 ≤ initial → 0 < forkReward forks initial height :=
    fun hforks hinitial => one_pos.trans_le (le_forkReward hforks hinitial height)
  have hclassic : classicReward height = .ok base → 0 < base := by
    intro hreward
    obtain ⟨_, rfl⟩ := classicReward_eq_ok_iff.mp hreward
    exact roundedEraReward_pos _
  cases chainType with
  | main | mainPow =>
      obtain rfl := Except.ok.inj h
      exact hfork (by norm_num [mainForks]) (by norm_num)
  | ubiq =>
      obtain rfl := Except.ok.inj h
      exact hfork (by norm_num [ubiqForks]) (by norm_num)
  | octaSpace | octaSpaceTestnet =>
      obtain rfl := Except.ok.inj h
      exact hfork (by norm_num [octaSpaceForks]) (by norm_num)
  | hypra =>
      obtain rfl := Except.ok.inj h
      exact hfork (by norm_num [hypraForks]) (by norm_num)
  | classic | mordor => exact hclassic h
  | cortex | bernard | dolores =>
      obtain rfl := Except.ok.inj h
      exact cortexReward_pos (by norm_num) height
  | etherOne | pink | callisto =>
      obtain rfl := Except.ok.inj h
      norm_num
  | ropsten | unknown => cases h

/-- The reward of a supported chain is known as long as its powers fit a decimal. -/
theorem exists_baseBlockReward_iff (hsupported : IsSupported chainType) :
    (∃ base, getBaseBlockReward chainType height = .ok base) ↔
      (IsClassic chainType → height / classicEraLength ≤ lastClassicEra) := by
  by_cases hclassic : IsClassic chainType
  · have hreward : getBaseBlockReward chainType height = classicReward height := by
      rcases hclassic with rfl | rfl <;> rfl
    simp only [hreward, classicReward_eq_ok_iff, hclassic, true_imp_iff]
    exact ⟨fun ⟨_, h, _⟩ => h, fun h => ⟨_, h, rfl⟩⟩
  · refine iff_of_true ?_ fun h => absurd h hclassic
    cases chainType with
    | ropsten => exact absurd rfl hsupported.1
    | unknown => exact absurd rfl hsupported.2
    | classic => exact absurd (Or.inl rfl) hclassic
    | mordor => exact absurd (Or.inr rfl) hclassic
    | _ => exact ⟨_, rfl⟩

/-! ### The share of an uncle -/

/-- The share of an uncle is one of the reward exactly as far as the span of the chain. -/
theorem uncleShare_bounded_iff (hspan : 0 < span) (hsmall : span < 2 ^ 64) (hbase : 0 < base)
    (hle : uheight ≤ height) (hheight : height < 2 ^ 64) :
    (0 ≤ uncleShare span uheight height base ∧ uncleShare span uheight height base ≤ base) ↔
      height ≤ uheight + span := by
  have hspan' : (0 : ℚ) < span := by exact_mod_cast hspan
  have hfactor : ∀ k : ℕ, (0 ≤ base * k / span ∧ base * k / span ≤ base) ↔ k ≤ span := by
    intro k
    rw [and_iff_right (by positivity), div_le_iff₀ hspan', mul_le_mul_iff_right₀ hbase,
      Nat.cast_le]
  rw [uncleShare]
  split
  · rw [hfactor]
    by_cases hnear : height ≤ uheight + span
    · rw [subUlong_addUlong_of_le hle hsmall hnear]
      omega
    · rw [subUlong_addUlong_of_lt hheight (not_le.mp hnear)]
      omega
  · rename_i hequal
    have hone := hfactor 1
    rw [Nat.cast_one, mul_one] at hone
    rw [hone]
    omega

theorem getUncleReward_eq (h : getBaseBlockReward chainType height = .ok base) :
    getUncleReward chainType uheight height totalDuplicateBlockBefore maxUncles =
      .ok (if maxUncles < totalDuplicateBlockBefore then 0
        else match uncleSpan chainType height with
          | some span => uncleShare span uheight height base
          | none => flatUncleReward chainType base) := by
  rw [getUncleReward, h]
  cases chainType with
  | classic | mordor =>
      by_cases hera : height / classicEraLength = 0
      · simp only [uncleSpan, if_pos hera]
      · simp only [uncleSpan, if_neg hera, flatUncleReward]
        rfl
  | _ => rfl

theorem flatUncleReward_bounded (h : getBaseBlockReward chainType height = .ok base)
    (hflat : uncleSpan chainType height = none) :
    0 ≤ flatUncleReward chainType base ∧ flatUncleReward chainType base ≤ base := by
  have hpos := baseBlockReward_pos h
  rw [flatUncleReward]
  split
  · rename_i hhypra
    subst hhypra
    obtain rfl := Except.ok.inj h
    have hbound : 1 / 10 ≤ forkReward hypraForks 4 height :=
      le_forkReward (by norm_num [hypraForks]) (by norm_num) height
    exact ⟨by norm_num, hbound⟩
  · exact ⟨by positivity, div_le_self hpos.le (by norm_num)⟩

theorem uncleSpan_bounds (h : uncleSpan chainType height = some span) :
    0 < span ∧ span < 2 ^ 64 := by
  have hspan : span = 2 ∨ span = 8 := by
    cases chainType <;> simp_all [uncleSpan]
  omega

theorem uncleRewardBounded_iff_of_base (h : getBaseBlockReward chainType height = .ok base)
    (hle : uheight ≤ height) (hheight : height < 2 ^ 64) :
    UncleRewardBounded chainType uheight height totalDuplicateBlockBefore maxUncles ↔
      maxUncles < totalDuplicateBlockBefore ∨
        ∀ span ∈ uncleSpan chainType height, height ≤ uheight + span := by
  have hpos := baseBlockReward_pos h
  simp only [UncleRewardBounded, h, Except.ok.injEq, getUncleReward_eq h, exists_and_left,
    exists_eq_left']
  by_cases hmany : maxUncles < totalDuplicateBlockBefore
  · simp only [hmany, if_true, true_or, iff_true]
    exact ⟨le_rfl, hpos.le⟩
  · simp only [hmany, if_false, false_or]
    cases hspan : uncleSpan chainType height with
    | none => exact iff_of_true (flatUncleReward_bounded h hspan) fun _ hmem => by cases hmem
    | some span =>
        obtain ⟨hspanpos, hsmall⟩ := uncleSpan_bounds hspan
        rw [uncleShare_bounded_iff hspanpos hsmall hpos hle hheight]
        simp only [Option.mem_some_iff, forall_eq']

/-- The reward of an uncle is bounded exactly where the reward of a block is known and the uncle is
no further behind than the span of the chain, unless it is one too many and gets nothing. -/
theorem uncleRewardBounded_iff (maxUncles : ℤ) (totalDuplicateBlockBefore : ℕ)
    (hsupported : IsSupported chainType) (hle : uheight ≤ height) (hheight : height < 2 ^ 64) :
    UncleRewardBounded chainType uheight height totalDuplicateBlockBefore maxUncles ↔
      (IsClassic chainType → height / classicEraLength ≤ lastClassicEra) ∧
        (maxUncles < totalDuplicateBlockBefore ∨
          ∀ span ∈ uncleSpan chainType height, height ≤ uheight + span) := by
  rw [← exists_baseBlockReward_iff hsupported]
  constructor
  · intro h
    have hbounded := h
    obtain ⟨base, _, hbase, _⟩ := h
    exact ⟨⟨base, hbase⟩, (uncleRewardBounded_iff_of_base hbase hle hheight).mp hbounded⟩
  · rintro ⟨⟨base, hbase⟩, h⟩
    exact (uncleRewardBounded_iff_of_base hbase hle hheight).mpr h

/-- An uncle four heights behind keeps half of the reward on a chain with a span of eight. -/
theorem uncleRewardBounded_classic :
    UncleRewardBounded .classic 4000000 4000004 0 2 := by
  rw [uncleRewardBounded_iff 2 0 ⟨by decide, by decide⟩ (by norm_num) (by norm_num)]
  refine ⟨fun _ => by norm_num [classicEraLength], Or.inr fun span hspan => ?_⟩
  obtain rfl : span = 8 := by simpa [uncleSpan, classicEraLength] using hspan.symm
  norm_num

/-- The generations behind a block that it can reference an uncle of. -/
def CanReference (uheight height : ℕ) : Prop := uheight < height ∧ height ≤ uheight + 6

/-- An uncle three heights behind on a chain with a span of two. -/
theorem not_forall_uncleRewardBounded :
    ¬∀ (chainType : GethChainType) (uheight height totalDuplicateBlockBefore : ℕ) (maxUncles : ℤ),
      IsSupported chainType → height < 2 ^ 64 → CanReference uheight height →
        UncleRewardBounded chainType uheight height totalDuplicateBlockBefore maxUncles := by
  intro h
  have hbounded := h .ubiq 1999997 2000000 0 2 ⟨by decide, by decide⟩ (by norm_num)
    ⟨by norm_num, by norm_num⟩
  have hbase : getBaseBlockReward .ubiq 2000000 = .ok (forkReward ubiqForks 8 2000000) := rfl
  rw [uncleRewardBounded_iff_of_base hbase (by norm_num) (by norm_num)] at hbounded
  rcases hbounded with hmany | hnear
  · norm_num at hmany
  · have hle := hnear 2 rfl
    norm_num at hle

end EthereumPayoutHandler

end Miningcore
