import Mathlib.RingTheory.Coprime.Lemmas
import Mathlib.RingTheory.Int.Basic
import Mathlib.Tactic.NormNum
import Miningcore.Extensions.UnsignedArithmetic
import Miningcore.Foundation.DecimalRounding
import Miningcore.Persistence.Repositories

/-!
# Rewards of Ethereum blocks and uncles

Every chain has a table of forks, from which heights on a reward holds, or eras in which
it falls. An uncle gets a part of the reward of the block that references it. The rewards
are those of the schedule up to some height of a chain.

## Implementation notes

Heights are 64-bit numbers whose sums and differences wrap around. Decimals and
doubles are rational numbers. A power loses what is behind its first 15 digits when it
becomes a decimal, and one that no decimal can hold throws.
-/

namespace Miningcore

open Foundation

inductive GethChainType
  | main
  | ropsten
  | ubiq
  | classic
  | mordor
  | callisto
  | mainPow
  | etherOne
  | pink
  | octaSpace
  | octaSpaceTestnet
  | hypra
  | cortex
  | dolores
  | bernard
  | unknown
deriving DecidableEq

namespace EthereumPayoutHandler

/-- The reward of the first fork of a table that has been reached. -/
def forkReward (forks : List (ℕ × ℚ)) (initial : ℚ) (height : ℕ) : ℚ :=
  match forks.find? fun fork => fork.1 ≤ height with
  | some fork => fork.2
  | none => initial

def mainForks : List (ℕ × ℚ) := [(7280000, 2), (4370000, 3)]

def ubiqForks : List (ℕ × ℚ) :=
  [(1791793, 3 / 2), (1433454, 4), (1075090, 5), (716727, 6), (358363, 7)]

def octaSpaceForks : List (ℕ × ℚ) :=
  [(10000000, 1), (8000000, 11 / 10), (6000000, 12 / 10), (4000000, 185 / 100), (3000000, 23 / 10),
    (2500000, 28 / 10), (2000000, 3), (1500000, 35 / 10), (1000000, 4), (650000, 5)]

/-- The oldest fork stands first. -/
def hypraForks : List (ℕ × ℚ) := [(15787969, 3), (27200177, 2), (40725107, 1)]

def classicEraLength : ℕ := 5000001

/-- A power as a decimal, which keeps 15 digits of a double. -/
def toDecimal (value : ℕ) : Except Exception ℚ :=
  if value < 2 ^ 96 then .ok (roundSignificant 15 value) else .error (.overflow "Decimal")

def classicReward (height : ℕ) : Except Exception ℚ :=
  let era := height / classicEraLength
  match toDecimal (4 ^ era), toDecimal (5 ^ era) with
  | .ok quotient, .ok divisor => .ok (5 * quotient / divisor)
  | .error e, _ => .error e
  | .ok _, .error e => .error e

def cortexReward (period height : ℕ) : ℚ :=
  if period ≤ height then 7 / (height / period : ℕ) else 7

def getBaseBlockReward (chainType : GethChainType) (height : ℕ) : Except Exception ℚ :=
  match chainType with
  | .main | .mainPow => .ok (forkReward mainForks 5 height)
  | .classic | .mordor => classicReward height
  | .etherOne => .ok 2
  | .pink => .ok 1
  | .callisto => .ok (7776 / 100 * (50 / 100))
  | .ubiq => .ok (forkReward ubiqForks 8 height)
  | .octaSpace | .octaSpaceTestnet => .ok (forkReward octaSpaceForks (65 / 10) height)
  | .hypra => .ok (forkReward hypraForks 4 height)
  | .cortex | .bernard => .ok (cortexReward 8409600 height)
  | .dolores => .ok (cortexReward 1000000 height)
  | .ropsten | .unknown =>
      .error (.invalidOperation "Unable to determine block reward: Unsupported chain type")

/-- The share of the reward that is left to an uncle some blocks behind. -/
def uncleShare (span : ℕ) (uheight height : ℕ) (reward : ℚ) : ℚ :=
  (if uheight ≠ height then reward * subUlong (addUlong uheight span) height else reward) / span

def getUncleReward (chainType : GethChainType) (uheight height totalDuplicateBlockBefore : ℕ)
    (maxUncles : ℤ) : Except Exception ℚ :=
  match getBaseBlockReward chainType height with
  | .error e => .error e
  | .ok reward =>
      let share :=
        match chainType with
        | .classic | .mordor =>
            if height / classicEraLength = 0 then uncleShare 8 uheight height reward
            else reward / 32
        | .ubiq => uncleShare 2 uheight height reward
        | .hypra => 1 / 10
        | _ => uncleShare 8 uheight height reward
      .ok (if maxUncles < totalDuplicateBlockBefore then 0 else share)

/-! ## The eras of Ethereum Classic -/

section eras

variable {height : ℕ} {base : ℚ}

/-- The last era whose powers fit a decimal. -/
def lastClassicEra : ℕ := 41

theorem fits_decimal_iff {era : ℕ} : 5 ^ era < 2 ^ 96 ↔ era ≤ lastClassicEra := by
  constructor
  · intro h
    by_contra hlate
    have hpow : 5 ^ (lastClassicEra + 1) ≤ 5 ^ era :=
      Nat.pow_le_pow_right (by norm_num) (Nat.lt_of_not_le hlate)
    have hbig : 2 ^ 96 < 5 ^ (lastClassicEra + 1) := by norm_num [lastClassicEra]
    omega
  · intro h
    calc 5 ^ era ≤ 5 ^ lastClassicEra := Nat.pow_le_pow_right (by norm_num) h
      _ < 2 ^ 96 := by norm_num [lastClassicEra]

/-- The reward of an era whose powers fit, with their first 15 digits. -/
def roundedEraReward (era : ℕ) : ℚ :=
  5 * roundSignificant 15 (4 ^ era) / roundSignificant 15 (5 ^ era)

theorem classicReward_eq_ok_iff :
    classicReward height = .ok base ↔
      height / classicEraLength ≤ lastClassicEra ∧
        roundedEraReward (height / classicEraLength) = base := by
  have hle : 4 ^ (height / classicEraLength) ≤ 5 ^ (height / classicEraLength) :=
    Nat.pow_le_pow_left (by norm_num) _
  rw [← fits_decimal_iff, classicReward]
  by_cases hfive : 5 ^ (height / classicEraLength) < 2 ^ 96
  · have hfour : 4 ^ (height / classicEraLength) < 2 ^ 96 := hle.trans_lt hfive
    rw [toDecimal, if_pos hfour, toDecimal, if_pos hfive, and_iff_right hfive]
    exact ⟨Except.ok.inj, congrArg Except.ok⟩
  · rw [toDecimal, toDecimal, if_neg hfive]
    refine iff_of_false ?_ fun h => hfive h.1
    split <;> simp_all

/-- The rounded powers are close to the powers. -/
theorem roundSignificant_pow_bounds (b era : ℕ) :
    (99 / 100 : ℚ) * b ^ era ≤ roundSignificant 15 (b ^ era) ∧
      (roundSignificant 15 (b ^ era) : ℚ) ≤ 101 / 100 * b ^ era := by
  have herror := @abs_roundSignificant_sub_mul_le 15 (by decide) (b ^ era)
  rw [Nat.cast_pow] at herror
  have hnonneg : (0 : ℚ) ≤ b ^ era := by positivity
  have hclose : |(roundSignificant 15 (b ^ era) : ℚ) - b ^ era| ≤ b ^ era / 100 := by
    have hpositive := abs_nonneg ((roundSignificant 15 (b ^ era) : ℚ) - b ^ era)
    norm_num at herror
    linarith
  rw [abs_le] at hclose
  constructor <;> linarith

/-- The reward of an era in exact rationals. -/
def eraReward (era : ℕ) : ℚ := 5 * (4 / 5) ^ era

theorem eraReward_pos (era : ℕ) : 0 < eraReward era := by
  rw [eraReward]
  positivity

theorem eraReward_eq_div (era : ℕ) : eraReward era = 5 * 4 ^ era / 5 ^ era := by
  rw [eraReward, div_pow]
  ring

theorem eraReward_le {era other : ℕ} (h : era < other) : eraReward other ≤ 4 / 5 * eraReward era :=
  calc eraReward other ≤ 5 * (4 / 5) ^ (era + 1) :=
        mul_le_mul_of_nonneg_left (pow_le_pow_of_le_one (by norm_num) (by norm_num) h)
          (by norm_num)
    _ = 4 / 5 * eraReward era := by
        rw [eraReward]
        ring

theorem eraReward_antitone {era other : ℕ} (h : era ≤ other) :
    eraReward other ≤ eraReward era :=
  mul_le_mul_of_nonneg_left (pow_le_pow_of_le_one (by norm_num) (by norm_num) h) (by norm_num)

theorem eraReward_injective : Function.Injective eraReward := by
  intro era other heq
  have hpos := eraReward_pos era
  obtain hlt | hsame | hlt := lt_trichotomy era other
  · have hle := eraReward_le hlt
    linarith
  · exact hsame
  · have hle := eraReward_le hlt
    linarith

/-- What is lost with the digits is less than what an era makes. -/
theorem roundedEraReward_bounds (era : ℕ) :
    9 / 10 * eraReward era < roundedEraReward era ∧
      roundedEraReward era < 11 / 10 * eraReward era := by
  obtain ⟨hfour, hfour'⟩ := roundSignificant_pow_bounds 4 era
  obtain ⟨hfive, hfive'⟩ := roundSignificant_pow_bounds 5 era
  have hpos : (0 : ℚ) < 5 ^ era := by positivity
  have hpos' : (0 : ℚ) < 4 ^ era := by positivity
  rw [eraReward_eq_div, roundedEraReward]
  generalize (roundSignificant 15 (4 ^ era) : ℚ) = quotient at hfour hfour'
  generalize (roundSignificant 15 (5 ^ era) : ℚ) = divisor at hfive hfive'
  push_cast at hfour hfour' hfive hfive'
  generalize (5 : ℚ) ^ era = five at hpos hfive hfive'
  generalize (4 : ℚ) ^ era = four at hpos' hfour hfour'
  have hdivisor : 0 < divisor := by linarith
  have hproduct : 0 < four * five := mul_pos hpos' hpos
  constructor
  · rw [← mul_div_assoc, div_lt_div_iff₀ hpos hdivisor]
    calc 9 / 10 * (5 * four) * divisor ≤ 9 / 10 * (5 * four) * (101 / 100 * five) :=
          mul_le_mul_of_nonneg_left hfive' (by positivity)
      _ < 5 * (99 / 100 * four) * five := by linarith
      _ ≤ 5 * quotient * five :=
          mul_le_mul_of_nonneg_right (mul_le_mul_of_nonneg_left hfour (by norm_num)) hpos.le
  · rw [← mul_div_assoc, div_lt_div_iff₀ hdivisor hpos]
    calc 5 * quotient * five ≤ 5 * (101 / 100 * four) * five :=
          mul_le_mul_of_nonneg_right (mul_le_mul_of_nonneg_left hfour' (by norm_num)) hpos.le
      _ < 11 / 10 * (5 * four) * (99 / 100 * five) := by linarith
      _ ≤ 11 / 10 * (5 * four) * divisor :=
          mul_le_mul_of_nonneg_left hfive (by positivity)

theorem roundedEraReward_pos (era : ℕ) : 0 < roundedEraReward era := by
  have hpos := eraReward_pos era
  have hbound := (roundedEraReward_bounds era).1
  linarith

/-- The last era whose powers have no more than 15 digits. -/
def lastExactEra : ℕ := 21

theorem roundedEraReward_of_le {era : ℕ} (h : era ≤ lastExactEra) :
    roundedEraReward era = eraReward era := by
  have hfive : 5 ^ era < 10 ^ 15 :=
    calc 5 ^ era ≤ 5 ^ lastExactEra := Nat.pow_le_pow_right (by norm_num) h
      _ < 10 ^ 15 := by norm_num [lastExactEra]
  have hfour : 4 ^ era < 10 ^ 15 := (Nat.pow_le_pow_left (by norm_num) era).trans_lt hfive
  rw [roundedEraReward, roundSignificant_of_lt (by norm_num) hfour,
    roundSignificant_of_lt (by norm_num) hfive, eraReward_eq_div]
  push_cast
  rfl

/-- A multiple of a power that is close to it is the power. -/
theorem eq_pow_of_dvd {divisor : ℤ} {era : ℕ} (hdvd : (5 : ℤ) ^ era ∣ divisor)
    (hlow : (99 / 100 : ℚ) * 5 ^ era ≤ divisor) (hhigh : (divisor : ℚ) ≤ 101 / 100 * 5 ^ era) :
    divisor = 5 ^ era := by
  obtain ⟨factor, rfl⟩ := hdvd
  have hpower : (0 : ℚ) < 5 ^ era := by positivity
  push_cast at hlow hhigh
  rw [mul_comm, mul_le_mul_iff_right₀ hpower] at hlow
  rw [mul_comm (101 / 100 : ℚ), mul_le_mul_iff_right₀ hpower] at hhigh
  have hone : 0 < factor ∧ factor < 2 := by
    constructor
    · exact_mod_cast (by norm_num : (0 : ℚ) < 99 / 100).trans_le hlow
    · exact_mod_cast hhigh.trans_lt (by norm_num : (101 / 100 : ℚ) < 2)
  have hfactor : factor = 1 := by omega
  rw [hfactor, mul_one]

/-- The divisor of a later era ends with a zero. -/
theorem roundedEraReward_ne_eraReward {era : ℕ} (h : lastExactEra < era) :
    roundedEraReward era ≠ eraReward era := by
  intro heq
  have hlong : 10 ^ 15 ≤ 5 ^ era :=
    calc 10 ^ 15 ≤ 5 ^ (lastExactEra + 1) := by norm_num [lastExactEra]
      _ ≤ 5 ^ era := Nat.pow_le_pow_right (by norm_num) h
  have hzero := ten_dvd_roundSignificant (by norm_num) hlong
  obtain ⟨hlow, hhigh⟩ := roundSignificant_pow_bounds 5 era
  have hpower : (0 : ℚ) < 5 ^ era := by positivity
  rw [roundedEraReward, eraReward_eq_div] at heq
  generalize roundSignificant 15 (4 ^ era) = quotient at heq
  generalize roundSignificant 15 (5 ^ era) = divisor at heq hzero hlow hhigh
  push_cast at hlow hhigh
  have hdivisor : (0 : ℚ) < divisor := by linarith
  rw [div_eq_div_iff hdivisor.ne' hpower.ne', mul_assoc, mul_assoc] at heq
  have hproduct : quotient * 5 ^ era = 4 ^ era * divisor := by
    have hcancel := mul_left_cancel₀ (by norm_num : (5 : ℚ) ≠ 0) heq
    exact_mod_cast hcancel
  have hcoprime : IsCoprime ((5 : ℤ) ^ era) (4 ^ era) :=
    IsCoprime.pow (Int.isCoprime_iff_gcd_eq_one.mpr (by decide))
  have hdvd := hcoprime.dvd_of_dvd_mul_left (Dvd.intro_left quotient hproduct)
  rw [eq_pow_of_dvd hdvd hlow hhigh] at hzero
  have heven : (2 : ℤ) ∣ 5 ^ era := (by norm_num : (2 : ℤ) ∣ 10).trans hzero
  have htwo := Int.prime_two.dvd_of_dvd_pow heven
  norm_num at htwo

/-- The reward of a later era is not that of any era. -/
theorem roundedEraReward_ne {era : ℕ} (h : lastExactEra < era) (other : ℕ) :
    roundedEraReward era ≠ eraReward other := by
  intro heq
  obtain ⟨hlow, hhigh⟩ := roundedEraReward_bounds era
  have hpos := eraReward_pos era
  obtain hlt | rfl | hlt := lt_trichotomy era other
  · have hle := eraReward_le hlt
    linarith
  · exact roundedEraReward_ne_eraReward h heq
  · have hle := eraReward_le hlt
    linarith

end eras

/-! ## The schedules of the chains -/

/-- The reward of the highest fork that is not above a height. -/
def HighestFork (forks : List (ℕ × ℚ)) (initial : ℚ) (height : ℕ) (reward : ℚ) : Prop :=
  (∀ fork ∈ forks, height < fork.1) ∧ reward = initial ∨
    ∃ fork ∈ forks, fork.1 ≤ height ∧
      (∀ other ∈ forks, other.1 ≤ height → other.1 ≤ fork.1) ∧ reward = fork.2

/-- The eras of 5,000,000 blocks, of which the first begins with block 1. -/
def classicEra (height : ℕ) : ℕ := (height - 1) / 5000000

/-- The reward is the one that the constants of a chain and their comments tell. -/
def Scheduled (chainType : GethChainType) (height : ℕ) (reward : ℚ) : Prop :=
  match chainType with
  | .main | .mainPow => HighestFork mainForks 5 height reward
  | .classic | .mordor => reward = eraReward (classicEra height)
  | .etherOne => reward = 2
  | .pink => reward = 1
  | .callisto => reward = 3888 / 100
  | .ubiq => HighestFork ubiqForks 8 height reward
  | .octaSpace | .octaSpaceTestnet => HighestFork octaSpaceForks (65 / 10) height reward
  | .hypra => HighestFork hypraForks 4 height reward
  | .cortex | .bernard => reward = 7 / 2 ^ (height / 8409600)
  | .dolores => reward = 7 / 2 ^ (height / 1000000)
  | .ropsten | .unknown => False

/-- There is a reward, it is the scheduled one, and no lower block has less. -/
def FollowsSchedule (chainType : GethChainType) (height : ℕ) : Prop :=
  ∃ reward, getBaseBlockReward chainType height = .ok reward ∧
    Scheduled chainType height reward ∧
    ∀ lower ≤ height, ∀ lowerReward, getBaseBlockReward chainType lower = .ok lowerReward →
      reward ≤ lowerReward

/-- The heights up to where the computed eras, the order of the forks and the number of halvings
agree with the schedule. -/
def OnSchedule (chainType : GethChainType) (height : ℕ) : Prop :=
  match chainType with
  | .classic | .mordor =>
      height / classicEraLength = classicEra height ∧ classicEra height ≤ lastExactEra
  | .hypra => height < 27200177
  | .cortex | .bernard => height < 8409600
  | .dolores => height < 1000000
  | .ropsten | .unknown => False
  | _ => True

section schedules

variable {forks : List (ℕ × ℚ)} {initial : ℚ} {height lower : ℕ}

theorem forkReward_cons (fork : ℕ × ℚ) (forks : List (ℕ × ℚ)) (initial : ℚ) (height : ℕ) :
    forkReward (fork :: forks) initial height =
      if fork.1 ≤ height then fork.2 else forkReward forks initial height := by
  by_cases hreached : fork.1 ≤ height
  · simp [forkReward, hreached]
  · simp [forkReward, hreached]

theorem le_forkReward {bound : ℚ} (hforks : ∀ fork ∈ forks, bound ≤ fork.2)
    (hinitial : bound ≤ initial) (height : ℕ) :
    bound ≤ forkReward forks initial height := by
  rw [forkReward]
  split
  · rename_i fork hfork
    exact hforks fork (List.mem_of_find?_eq_some hfork)
  · exact hinitial

/-- Forks from the highest to the lowest are found in that order. -/
theorem highestFork_forkReward (hsorted : forks.Pairwise fun fork other => other.1 < fork.1) :
    HighestFork forks initial height (forkReward forks initial height) := by
  induction forks with
  | nil => exact Or.inl ⟨fun _ hmem => absurd hmem List.not_mem_nil, rfl⟩
  | cons fork forks ih =>
      obtain ⟨hhead, htail⟩ := List.pairwise_cons.mp hsorted
      rw [forkReward_cons]
      by_cases hreached : fork.1 ≤ height
      · rw [if_pos hreached]
        refine Or.inr ⟨fork, List.mem_cons_self, hreached, ?_, rfl⟩
        intro other hother _
        obtain rfl | hmem := List.mem_cons.mp hother
        · exact le_rfl
        · exact (hhead other hmem).le
      · rw [if_neg hreached]
        obtain ⟨habove, hreward⟩ | ⟨found, hfound, hbelow, hhighest, hreward⟩ := ih htail
        · left
          refine ⟨?_, hreward⟩
          intro other hother
          obtain rfl | hmem := List.mem_cons.mp hother
          · exact not_le.mp hreached
          · exact habove other hmem
        · right
          refine ⟨found, List.mem_cons_of_mem fork hfound, hbelow, ?_, hreward⟩
          intro other hother hle
          obtain rfl | hmem := List.mem_cons.mp hother
          · exact absurd hle hreached
          · exact hhighest other hmem hle

/-- Rewards that fall from fork to fork fall with the height. -/
theorem forkReward_antitone (hfalling : forks.Pairwise fun fork other => fork.2 ≤ other.2)
    (hinitial : ∀ fork ∈ forks, fork.2 ≤ initial) (hle : lower ≤ height) :
    forkReward forks initial height ≤ forkReward forks initial lower := by
  induction forks with
  | nil => exact le_rfl
  | cons fork forks ih =>
      obtain ⟨hhead, htail⟩ := List.pairwise_cons.mp hfalling
      rw [forkReward_cons, forkReward_cons]
      by_cases hlower : fork.1 ≤ lower
      · rw [if_pos (hlower.trans hle), if_pos hlower]
      · rw [if_neg hlower]
        split
        · exact le_forkReward hhead (hinitial fork List.mem_cons_self) lower
        · exact ih htail fun other hmem => hinitial other (List.mem_cons_of_mem fork hmem)

/-- The first of the Hypra forks stands in front of the later ones. -/
theorem forkReward_hypraForks (height : ℕ) :
    forkReward hypraForks 4 height = if 15787969 ≤ height then 3 else 4 := by
  rw [hypraForks, forkReward_cons, forkReward_cons, forkReward_cons]
  split
  · rfl
  · rename_i hbelow
    rw [if_neg (by dsimp only at hbelow ⊢; omega), if_neg (by dsimp only at hbelow ⊢; omega)]
    rfl

section chains

variable {chainType : GethChainType} {reward : ℚ} {period : ℕ}

theorem followsSchedule_of_constant
    (hreward : ∀ height, getBaseBlockReward chainType height = .ok reward)
    (hscheduled : Scheduled chainType height reward) : FollowsSchedule chainType height := by
  refine ⟨reward, hreward height, hscheduled, ?_⟩
  intro lower _ lowerReward hlower
  exact (Except.ok.inj ((hreward lower).symm.trans hlower)).le

theorem followsSchedule_of_forks
    (hreward : ∀ height,
      getBaseBlockReward chainType height = .ok (forkReward forks initial height))
    (hscheduled : Scheduled chainType height = HighestFork forks initial height)
    (hsorted : forks.Pairwise fun fork other => other.1 < fork.1)
    (hfalling : forks.Pairwise fun fork other => fork.2 ≤ other.2)
    (hinitial : ∀ fork ∈ forks, fork.2 ≤ initial) : FollowsSchedule chainType height := by
  refine ⟨_, hreward height, ?_, ?_⟩
  · rw [hscheduled]
    exact highestFork_forkReward hsorted
  · intro lower hle lowerReward hlower
    obtain rfl := Except.ok.inj ((hreward lower).symm.trans hlower)
    exact forkReward_antitone hfalling hinitial hle

/-- The second fork of Hypra is not found. -/
theorem followsSchedule_hypra_iff : FollowsSchedule .hypra height ↔ height < 27200177 := by
  have hbase (height : ℕ) : getBaseBlockReward .hypra height =
      .ok (if 15787969 ≤ height then 3 else 4) :=
    congrArg Except.ok (forkReward_hypraForks height)
  constructor
  · rintro ⟨reward, hreward, hscheduled, -⟩
    obtain rfl := Except.ok.inj ((hbase height).symm.trans hreward)
    by_contra hlate
    rw [not_lt] at hlate
    rw [if_pos (by omega)] at hscheduled
    obtain ⟨habove, -⟩ | ⟨fork, hfork, -, hhighest, hthree⟩ := hscheduled
    · have hfirst := habove (15787969, 3) (by simp [hypraForks])
      dsimp only at hfirst
      omega
    · have hsecond := hhighest (27200177, 2) (by simp [hypraForks]) hlate
      simp only [hypraForks, List.mem_cons, List.not_mem_nil, or_false] at hfork
      obtain rfl | rfl | rfl := hfork
      · norm_num at hsecond
      · norm_num at hthree
      · norm_num at hthree
  · intro hearly
    refine ⟨_, hbase height, ?_, ?_⟩
    · by_cases hreached : 15787969 ≤ height
      · rw [if_pos hreached]
        refine Or.inr ⟨(15787969, 3), by simp [hypraForks], hreached, ?_, rfl⟩
        intro other hother hle
        simp only [hypraForks, List.mem_cons, List.not_mem_nil, or_false] at hother
        obtain rfl | rfl | rfl := hother
        · exact le_rfl
        · exact absurd hle (by dsimp only; omega)
        · exact absurd hle (by dsimp only; omega)
      · rw [if_neg hreached]
        refine Or.inl ⟨?_, rfl⟩
        intro other hother
        simp only [hypraForks, List.mem_cons, List.not_mem_nil, or_false] at hother
        obtain rfl | rfl | rfl := hother <;> dsimp only <;> omega
    · intro lower hle lowerReward hlower
      obtain rfl := Except.ok.inj ((hbase lower).symm.trans hlower)
      by_cases hreached : 15787969 ≤ lower
      · rw [if_pos (hreached.trans hle), if_pos hreached]
      · rw [if_neg hreached]
        split <;> norm_num

/-- The number of halvings is taken for their power. -/
theorem followsSchedule_halving_iff (hperiod : 0 < period)
    (hreward : ∀ height, getBaseBlockReward chainType height = .ok (cortexReward period height))
    (hscheduled : ∀ height reward, Scheduled chainType height reward ↔
      reward = 7 / 2 ^ (height / period)) :
    FollowsSchedule chainType height ↔ height < period := by
  constructor
  · rintro ⟨reward, hbase, hhalved, -⟩
    obtain rfl := Except.ok.inj ((hreward height).symm.trans hbase)
    rw [hscheduled] at hhalved
    by_contra hlate
    rw [not_lt] at hlate
    have hpositive : 0 < height / period := Nat.div_pos hlate hperiod
    have hdivided : cortexReward period height = 7 / (height / period : ℕ) := if_pos hlate
    rw [hdivided] at hhalved
    generalize height / period = halvings at hhalved hpositive
    rw [div_eq_div_iff (by positivity) (by positivity)] at hhalved
    have hpower : 7 * 2 ^ halvings = 7 * halvings := by exact_mod_cast hhalved
    have hlt : halvings < 2 ^ halvings := Nat.lt_two_pow_self
    omega
  · intro hearly
    have hseven {lower : ℕ} (hlower : lower < period) : cortexReward period lower = 7 :=
      if_neg hlower.not_ge
    refine ⟨_, hreward height, ?_, ?_⟩
    · rw [hscheduled, hseven hearly, Nat.div_eq_of_lt hearly, pow_zero, div_one]
    · intro lower hle lowerReward hlower
      obtain rfl := Except.ok.inj ((hreward lower).symm.trans hlower)
      rw [hseven hearly, hseven (hle.trans_lt hearly)]

/-- The eras are too long by a block, and later ones are not computed exactly. -/
theorem followsSchedule_classic_iff
    (hreward : ∀ height, getBaseBlockReward chainType height = classicReward height)
    (hscheduled : ∀ height reward, Scheduled chainType height reward ↔
      reward = eraReward (classicEra height)) :
    FollowsSchedule chainType height ↔
      height / classicEraLength = classicEra height ∧ classicEra height ≤ lastExactEra := by
  constructor
  · rintro ⟨reward, hbase, hera, -⟩
    rw [hreward, classicReward_eq_ok_iff] at hbase
    obtain ⟨-, rfl⟩ := hbase
    rw [hscheduled] at hera
    obtain hexact | hlate := le_or_gt (height / classicEraLength) lastExactEra
    · rw [roundedEraReward_of_le hexact] at hera
      have hsame := eraReward_injective hera
      exact ⟨hsame, hsame ▸ hexact⟩
    · exact absurd hera (roundedEraReward_ne hlate _)
  · rintro ⟨hsame, hexact⟩
    rw [← hsame] at hexact
    refine ⟨eraReward (height / classicEraLength), ?_, ?_, ?_⟩
    · rw [hreward, classicReward_eq_ok_iff]
      exact ⟨hexact.trans (by decide), roundedEraReward_of_le hexact⟩
    · rw [hscheduled, hsame]
    · intro lower hle lowerReward hlower
      rw [hreward, classicReward_eq_ok_iff] at hlower
      obtain ⟨-, rfl⟩ := hlower
      have hera : lower / classicEraLength ≤ height / classicEraLength := Nat.div_le_div_right hle
      rw [roundedEraReward_of_le (hera.trans hexact)]
      exact eraReward_antitone hera

end chains

/-- When a height gets the scheduled reward. -/
theorem followsSchedule_iff (chainType : GethChainType) (height : ℕ) :
    FollowsSchedule chainType height ↔ OnSchedule chainType height := by
  cases chainType with
  | main | mainPow =>
      refine iff_of_true (followsSchedule_of_forks (fun _ => rfl) rfl ?_ ?_ ?_) trivial
      · decide
      · norm_num [mainForks]
      · norm_num [mainForks]
  | ubiq =>
      refine iff_of_true (followsSchedule_of_forks (fun _ => rfl) rfl ?_ ?_ ?_) trivial
      · decide
      · norm_num [ubiqForks]
      · norm_num [ubiqForks]
  | octaSpace | octaSpaceTestnet =>
      refine iff_of_true (followsSchedule_of_forks (fun _ => rfl) rfl ?_ ?_ ?_) trivial
      · decide
      · decide +kernel
      · decide +kernel
  | etherOne | pink => exact iff_of_true (followsSchedule_of_constant (fun _ => rfl) rfl) trivial
  | callisto =>
      refine iff_of_true (followsSchedule_of_constant (fun _ => rfl) ?_) trivial
      change (7776 / 100 * (50 / 100) : ℚ) = 3888 / 100
      norm_num
  | hypra => exact followsSchedule_hypra_iff
  | cortex | bernard | dolores =>
      exact followsSchedule_halving_iff (by decide) (fun _ => rfl) fun _ _ => Iff.rfl
  | classic | mordor => exact followsSchedule_classic_iff (fun _ => rfl) fun _ _ => Iff.rfl
  | ropsten | unknown =>
      refine iff_of_false ?_ id
      rintro ⟨reward, hreward, -⟩
      cases hreward

/-- Hypra at its second fork, Classic at the second end of an era and Cortex at the first halving
get more than they should. -/
theorem not_followsSchedule : ¬ FollowsSchedule .hypra 27200177 ∧
    ¬ FollowsSchedule .classic 10000001 ∧ ¬ FollowsSchedule .cortex 8409600 := by
  refine ⟨?_, ?_, ?_⟩
  · rw [followsSchedule_hypra_iff]
    exact lt_irrefl _
  · rw [followsSchedule_classic_iff (fun _ => rfl) fun _ _ => Iff.rfl]
    rintro ⟨hsame, -⟩
    norm_num [classicEraLength, classicEra] at hsame
  · have hperiod : 0 < 8409600 := by decide
    rw [followsSchedule_halving_iff hperiod (fun _ => rfl) fun _ _ => Iff.rfl]
    exact lt_irrefl _

end schedules

end EthereumPayoutHandler

end Miningcore
