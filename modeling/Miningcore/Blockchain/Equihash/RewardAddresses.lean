import Miningcore.Blockchain.Equihash.CoinbaseTransaction
import Mathlib.Algebra.Order.Floor.Ring
import Mathlib.Algebra.Order.Floor.Semifield
import Mathlib.Data.Nat.Cast.Order.Field

/-!
# Addresses of the founders and of the treasury

A network that pays founders lists their addresses, each for an interval of heights. From its
first height on, the treasury takes their place. Its list starts over when it is through, while
that of the founders ends behind their last height.

## Implementation notes

The intervals of the treasury are counted by a quotient of doubles. It has the whole part of the
exact one when the interval is a whole number, and may reach the next whole number otherwise.
-/

namespace Miningcore.Equihash

open Foundation

/-! ### Intervals -/

section Intervals

variable {interval height index count : ℕ}

theorem div_eq_iff_mem (hpos : 0 < interval) :
    height / interval = index ↔ index * interval ≤ height ∧ height < (index + 1) * interval := by
  rw [Nat.div_eq_iff hpos, Nat.succ_mul]
  constructor
  · rintro ⟨hle, hlt⟩
    exact ⟨hle, by omega⟩
  · rintro ⟨hle, hlt⟩
    exact ⟨hle, by omega⟩

/-- Positions that start over are counted in rounds. -/
theorem mod_eq_iff_exists_round (hlt : index < count) (n : ℕ) :
    n % count = index ↔ ∃ round, n = round * count + index := by
  constructor
  · intro hmod
    refine ⟨n / count, ?_⟩
    rw [← hmod, Nat.mul_comm]
    exact (Nat.div_add_mod n count).symm
  · rintro ⟨round, rfl⟩
    rw [Nat.add_comm, Nat.add_mul_mod_self_right, Nat.mod_eq_of_lt hlt]

theorem floor_div_eq_iff {length : ℚ} (hpos : 0 < length) (n : ℕ) :
    ⌊(height : ℚ) / length⌋₊ = n ↔ (n : ℚ) * length ≤ height ∧ (height : ℚ) < (n + 1) * length := by
  rw [Nat.floor_eq_iff (by positivity), le_div_iff₀ hpos, div_lt_iff₀ hpos]

/-- The whole part of the remainder of a quotient. -/
def remainderIndex (quotient : ℚ) (count : ℕ) : ℕ := ⌊doubleRemainder quotient count⌋.toNat

theorem floor_doubleRemainder {quotient : ℚ} (hnonneg : 0 ≤ quotient) (count : ℕ) :
    ⌊doubleRemainder quotient count⌋ = (⌊quotient⌋₊ % count : ℕ) := by
  have hround : ⌊quotient / count⌋ = ((⌊quotient⌋₊ / count : ℕ) : ℤ) := by
    rw [Int.floor_div_natCast, ← Int.natCast_floor_eq_floor hnonneg]
    rfl
  have hwhole : (count : ℚ) * ⌊quotient / count⌋ = (count * (⌊quotient⌋₊ / count) : ℕ) := by
    rw [hround]
    push_cast
    rfl
  rw [doubleRemainder, if_pos (div_nonneg hnonneg count.cast_nonneg), hwhole,
    Int.floor_sub_natCast, ← Int.natCast_floor_eq_floor hnonneg, Nat.mod_eq_sub,
    Nat.cast_sub (Nat.mul_div_le _ _)]

theorem remainderIndex_eq {quotient : ℚ} (hnonneg : 0 ≤ quotient) (count : ℕ) :
    remainderIndex quotient count = ⌊quotient⌋₊ % count := by
  rw [remainderIndex, floor_doubleRemainder hnonneg, Int.toNat_natCast]

/-- By a whole number, no quotient is rounded as far as the next whole number. -/
theorem floor_roundDouble_div (hpos : 0 < interval) (hlt : height < 2 ^ 53) :
    ⌊roundDouble ((height : ℚ) / interval)⌋₊ = height / interval := by
  have hcast : (0 : ℚ) < interval := by exact_mod_cast hpos
  have hlow : ((height / interval : ℕ) : ℚ) ≤ roundDouble ((height : ℚ) / interval) := by
    rw [← roundDouble_natCast ((Nat.div_le_self height interval).trans hlt.le)]
    exact roundDouble_mono Nat.cast_div_le
  have hsucc : (height : ℚ) + 1 ≤ ((height / interval : ℕ) + 1) * interval := by
    rw [mul_comm]
    exact_mod_cast Nat.lt_mul_div_succ height hpos
  have herror := (abs_le.mp (abs_roundDouble_sub_le ((height : ℚ) / interval))).2
  rw [abs_of_nonneg (by positivity), sub_le_iff_le_add'] at herror
  rw [Nat.floor_eq_iff ((Nat.cast_nonneg _).trans hlow)]
  refine ⟨hlow, ?_⟩
  calc roundDouble ((height : ℚ) / interval)
      ≤ (height : ℚ) / interval + (height : ℚ) / interval / 2 ^ 53 := herror
    _ < (height : ℚ) / interval + 1 / interval := by
      rw [div_right_comm]
      apply add_lt_add_right
      apply div_lt_div_of_pos_right _ hcast
      rw [div_lt_one (by norm_num)]
      exact_mod_cast hlt
    _ = ((height : ℚ) + 1) / interval := (add_div _ _ _).symm
    _ ≤ (height / interval : ℕ) + 1 := by
      rw [div_le_iff₀ hcast]
      exact hsucc

end Intervals

namespace EquihashNetworkParams

variable (params : EquihashNetworkParams)

def foundersAddressChangeInterval : ℕ :=
  addUlong params.lastFoundersRewardBlockHeight params.foundersRewardAddresses.length /
    params.foundersRewardAddresses.length

/-- The network pays founders, and lists and intervals are there. -/
structure HasAddresses : Prop where
  payFoundersReward : params.payFoundersReward = true
  founders_ne_nil : params.foundersRewardAddresses ≠ []
  treasury_ne_nil : params.treasuryRewardAddresses ≠ []
  founders_interval_pos : 0 < params.foundersAddressChangeInterval
  treasury_interval_pos : 0 < params.treasuryRewardAddressChangeInterval

namespace HasAddresses

variable {params : EquihashNetworkParams} (h : params.HasAddresses)

include h

theorem founders_length_pos : 0 < params.foundersRewardAddresses.length :=
  List.length_pos_iff.mpr h.founders_ne_nil

theorem treasury_length_pos : 0 < params.treasuryRewardAddresses.length :=
  List.length_pos_iff.mpr h.treasury_ne_nil

/-- An interval that is positive has not wrapped around. -/
theorem founders_interval_eq : params.foundersAddressChangeInterval =
    params.lastFoundersRewardBlockHeight / params.foundersRewardAddresses.length + 1 := by
  have hlength := h.founders_length_pos
  have hle := (Nat.div_pos_iff.mp h.founders_interval_pos).2
  have hlast : params.lastFoundersRewardBlockHeight < 2 ^ 64 := Nat.mod_lt _ (by decide)
  have hsum : addUlong params.lastFoundersRewardBlockHeight params.foundersRewardAddresses.length =
      params.lastFoundersRewardBlockHeight + params.foundersRewardAddresses.length := by
    unfold addUlong at hle ⊢
    omega
  rw [foundersAddressChangeInterval, hsum, Nat.add_div_right _ hlength]

/-- There are addresses as far as the last height of the founders. -/
theorem last_lt : params.lastFoundersRewardBlockHeight <
    params.foundersRewardAddresses.length * params.foundersAddressChangeInterval := by
  rw [h.founders_interval_eq]
  exact Nat.lt_mul_div_succ _ h.founders_length_pos

end HasAddresses

end EquihashNetworkParams

namespace CoinbaseJob

variable (library : TransactionLibrary) (job : CoinbaseJob)

/-- The coinbase pays founders or the treasury. -/
def ReachesSelection : Prop :=
  job.networkParams.payFundingStream = false ∧ job.networkParams.vOuts = false ∧
    job.networkParams.payFoundersReward = true ∧
    (job.blockTemplate.height.toNat ≤ job.networkParams.lastFoundersRewardBlockHeight ∨
      0 < job.networkParams.treasuryRewardStartBlockHeight)

def PaysTreasury : Prop :=
  0 < job.networkParams.treasuryRewardStartBlockHeight ∧
    job.networkParams.treasuryRewardStartBlockHeight ≤ job.blockTemplate.height.toNat

instance : Decidable job.PaysTreasury := inferInstanceAs (Decidable (_ ∧ _))

def foundersRewardIndex : ℕ :=
  job.blockTemplate.height.toNat / job.networkParams.foundersAddressChangeInterval

def treasuryRewardIndex : ℕ :=
  if 2 ^ 1024 ≤ job.treasuryAddressChanges then 0
  else remainderIndex job.treasuryAddressChanges job.networkParams.treasuryRewardAddresses.length

/-- The height lies in an interval of the founders. -/
def InFoundersInterval (n : ℕ) : Prop :=
  n * job.networkParams.foundersAddressChangeInterval ≤ job.blockTemplate.height.toNat ∧
    job.blockTemplate.height.toNat < (n + 1) * job.networkParams.foundersAddressChangeInterval

/-- The height lies in an interval of the treasury, counted from its first height on. -/
def InTreasuryInterval (n : ℕ) : Prop :=
  (job.networkParams.treasuryRewardStartBlockHeight : ℚ) +
      n * job.networkParams.treasuryRewardAddressChangeInterval ≤ job.blockTemplate.height.toNat ∧
    (job.blockTemplate.height.toNat : ℚ) < job.networkParams.treasuryRewardStartBlockHeight +
      (n + 1) * job.networkParams.treasuryRewardAddressChangeInterval

/-- So many intervals have passed as the code counts them. -/
def HasChanged (n : ℕ) : Prop :=
  (n : ℚ) ≤ job.treasuryAddressChanges ∧ job.treasuryAddressChanges < n + 1

def rewardAddresses : List String :=
  if job.PaysTreasury then job.networkParams.treasuryRewardAddresses
  else job.networkParams.foundersRewardAddresses

def rewardIndex : ℕ :=
  if job.PaysTreasury then job.treasuryRewardIndex else job.foundersRewardIndex

def rewardPercent : ℚ :=
  if job.PaysTreasury then job.networkParams.percentTreasuryReward
  else job.networkParams.percentFoundersReward

/-- The outputs with a reward for an address. -/
def rewardOutputs (blockReward : ℚ) (address : Option String) : Option (List Output) := do
  let pool ← job.poolOutput blockReward job.rewardPercent
  let reward ← addressOutput library blockReward job.rewardPercent address
  some [pool, reward]

variable {library job}

theorem getFoundersRewardAddress_eq (h : job.networkParams.HasAddresses) :
    job.getFoundersRewardAddress =
      job.networkParams.foundersRewardAddresses[job.foundersRewardIndex]? := by
  rw [getFoundersRewardAddress]
  exact (if_neg h.founders_length_pos.ne').trans (if_neg h.founders_interval_pos.ne')

theorem treasuryAddressChanges_nonneg (h : job.networkParams.HasAddresses) :
    0 ≤ job.treasuryAddressChanges :=
  roundDouble_nonneg (div_nonneg (roundDouble_nonneg (Nat.cast_nonneg _))
    h.treasury_interval_pos.le)

theorem getTreasuryRewardAddress_eq (h : job.networkParams.HasAddresses) :
    job.getTreasuryRewardAddress =
      job.networkParams.treasuryRewardAddresses[job.treasuryRewardIndex]? := by
  have hnonneg := treasuryAddressChanges_nonneg h
  rw [getTreasuryRewardAddress, treasuryRewardIndex]
  by_cases hinfinite : 2 ^ 1024 ≤ job.treasuryAddressChanges
  · rw [if_pos (.inr (by rwa [abs_of_nonneg hnonneg])), if_pos hinfinite]
  · have hfinite : ¬ (job.networkParams.treasuryRewardAddressChangeInterval = 0 ∨
        2 ^ 1024 ≤ |job.treasuryAddressChanges|) := by
      rw [abs_of_nonneg hnonneg]
      rintro (hinterval | hlarge)
      · exact h.treasury_interval_pos.ne' hinterval
      · exact hinfinite hlarge
    have hindex : ¬ ⌊doubleRemainder job.treasuryAddressChanges
        job.networkParams.treasuryRewardAddresses.length⌋ < 0 := by
      rw [floor_doubleRemainder hnonneg]
      exact not_lt.mpr (Int.natCast_nonneg _)
    rw [if_neg hfinite, if_neg hinfinite, remainderIndex]
    exact if_neg hindex

/-- The coinbase pays the address at the index, and there is none without one. -/
theorem createOutputs_eq (h : job.networkParams.HasAddresses) (hreaches : job.ReachesSelection)
    (blockReward : ℚ) : job.createOutputs library blockReward =
      job.rewardOutputs library blockReward job.rewardAddresses[job.rewardIndex]? := by
  obtain ⟨hstream, houts, hpays, hheight⟩ := hreaches
  rw [createOutputs, if_neg (by rw [hstream]; exact Bool.false_ne_true),
    if_neg (by rw [houts]; exact Bool.false_ne_true), if_pos ⟨hpays, hheight⟩]
  by_cases htreasury : job.PaysTreasury
  · apply (if_pos htreasury).trans
    rw [getTreasuryRewardAddress_eq h, rewardOutputs, rewardPercent, rewardAddresses, rewardIndex,
      if_pos htreasury, if_pos htreasury, if_pos htreasury]
  · apply (if_neg htreasury).trans
    rw [getFoundersRewardAddress_eq h, rewardOutputs, rewardPercent, rewardAddresses, rewardIndex,
      if_neg htreasury, if_neg htreasury, if_neg htreasury]

/-! ### Heights -/

theorem foundersRewardIndex_eq_iff (h : job.networkParams.HasAddresses) {index : ℕ} :
    job.foundersRewardIndex = index ↔ job.InFoundersInterval index :=
  div_eq_iff_mem h.founders_interval_pos

/-- The founders have an address for the heights of as many intervals as there are addresses. -/
theorem foundersRewardIndex_lt_iff (h : job.networkParams.HasAddresses) :
    job.foundersRewardIndex < job.networkParams.foundersRewardAddresses.length ↔
      job.blockTemplate.height.toNat < job.networkParams.foundersRewardAddresses.length *
        job.networkParams.foundersAddressChangeInterval :=
  Nat.div_lt_iff_lt_mul h.founders_interval_pos

theorem foundersRewardIndex_lt (h : job.networkParams.HasAddresses)
    (hle : job.blockTemplate.height.toNat ≤ job.networkParams.lastFoundersRewardBlockHeight) :
    job.foundersRewardIndex < job.networkParams.foundersRewardAddresses.length :=
  (foundersRewardIndex_lt_iff h).mpr (hle.trans_lt h.last_lt)

/-- The heights behind the last one of the founders' intervals have no address, which come
before the treasury when that starts later. -/
theorem createOutputs_eq_none (h : job.networkParams.HasAddresses)
    (hreaches : job.ReachesSelection) (htreasury : ¬ job.PaysTreasury)
    (hlarge : job.networkParams.foundersRewardAddresses.length *
      job.networkParams.foundersAddressChangeInterval ≤ job.blockTemplate.height.toNat)
    (blockReward : ℚ) : job.createOutputs library blockReward = none := by
  have hnone : job.rewardAddresses[job.rewardIndex]? = none := by
    rw [rewardAddresses, rewardIndex, if_neg htreasury, if_neg htreasury, List.getElem?_eq_none_iff,
      ← not_lt, foundersRewardIndex_lt_iff h, not_lt]
    exact hlarge
  rw [createOutputs_eq h hreaches, hnone, rewardOutputs]
  cases job.poolOutput blockReward job.rewardPercent <;> rfl

theorem treasuryAddressChanges_eq (hpays : job.PaysTreasury) :
    job.treasuryAddressChanges = roundDouble ((job.blockTemplate.height.toNat -
        job.networkParams.treasuryRewardStartBlockHeight : ℕ) /
      job.networkParams.treasuryRewardAddressChangeInterval) := by
  have hlt : job.blockTemplate.height.toNat < 2 ^ 32 := job.blockTemplate.height.toNat_lt
  rw [treasuryAddressChanges, subUlong_of_le (hlt.trans (by decide)) hpays.2,
    roundDouble_natCast (by omega)]

theorem treasuryRewardIndex_lt (h : job.networkParams.HasAddresses) :
    job.treasuryRewardIndex < job.networkParams.treasuryRewardAddresses.length := by
  rw [treasuryRewardIndex]
  split
  · exact h.treasury_length_pos
  · rw [remainderIndex_eq (treasuryAddressChanges_nonneg h)]
    exact Nat.mod_lt _ h.treasury_length_pos

theorem treasuryRewardIndex_eq (h : job.networkParams.HasAddresses)
    (hfinite : job.treasuryAddressChanges < 2 ^ 1024) :
    job.treasuryRewardIndex = ⌊job.treasuryAddressChanges⌋₊ %
      job.networkParams.treasuryRewardAddresses.length := by
  rw [treasuryRewardIndex, if_neg (not_le.mpr hfinite),
    remainderIndex_eq (treasuryAddressChanges_nonneg h)]

/-- An address of the treasury is used while as many intervals have passed as its place in some
round says. -/
theorem treasuryRewardIndex_eq_iff (h : job.networkParams.HasAddresses)
    (hfinite : job.treasuryAddressChanges < 2 ^ 1024) {index : ℕ}
    (hindex : index < job.networkParams.treasuryRewardAddresses.length) :
    job.treasuryRewardIndex = index ↔ ∃ round, job.HasChanged
      (round * job.networkParams.treasuryRewardAddresses.length + index) := by
  rw [treasuryRewardIndex_eq h hfinite, mod_eq_iff_exists_round hindex]
  apply exists_congr
  intro round
  exact Nat.floor_eq_iff (treasuryAddressChanges_nonneg h)

section WholeInterval

variable {interval : ℕ} (h : job.networkParams.HasAddresses)
  (hinterval : job.networkParams.treasuryRewardAddressChangeInterval = interval)

include h hinterval

theorem interval_pos : 0 < interval := by
  have hcast := h.treasury_interval_pos
  rw [hinterval] at hcast
  exact_mod_cast hcast

variable (hpays : job.PaysTreasury)

include hpays

theorem floor_treasuryAddressChanges : ⌊job.treasuryAddressChanges⌋₊ =
    (job.blockTemplate.height.toNat - job.networkParams.treasuryRewardStartBlockHeight) /
      interval := by
  have hheight : job.blockTemplate.height.toNat < 2 ^ 32 := job.blockTemplate.height.toNat_lt
  rw [treasuryAddressChanges_eq hpays, hinterval,
    floor_roundDouble_div (interval_pos h hinterval) (by omega)]

theorem treasuryAddressChanges_lt : job.treasuryAddressChanges < 2 ^ 1024 := by
  have hheight : job.blockTemplate.height.toNat < 2 ^ 32 := job.blockTemplate.height.toNat_lt
  have hle := Nat.div_le_self
    (job.blockTemplate.height.toNat - job.networkParams.treasuryRewardStartBlockHeight) interval
  have hfloor : ⌊job.treasuryAddressChanges⌋₊ < 2 ^ 32 := by
    rw [floor_treasuryAddressChanges h hinterval hpays]
    omega
  calc job.treasuryAddressChanges
      < (2 ^ 32 : ℕ) := (Nat.floor_lt (treasuryAddressChanges_nonneg h)).mp hfloor
    _ ≤ 2 ^ 1024 := by
        rw [Nat.cast_pow]
        exact pow_le_pow_right₀ one_le_two (by decide)

/-- An address of the treasury is used for one interval of each round, when that is a whole
number. -/
theorem treasuryRewardIndex_eq_iff_inTreasuryInterval {index : ℕ}
    (hindex : index < job.networkParams.treasuryRewardAddresses.length) :
    job.treasuryRewardIndex = index ↔ ∃ round, job.InTreasuryInterval
      (round * job.networkParams.treasuryRewardAddresses.length + index) := by
  have hlength : (0 : ℚ) < interval := by exact_mod_cast interval_pos h hinterval
  rw [treasuryRewardIndex_eq h (treasuryAddressChanges_lt h hinterval hpays),
    floor_treasuryAddressChanges h hinterval hpays, ← Nat.floor_div_eq_div (K := ℚ),
    mod_eq_iff_exists_round hindex]
  apply exists_congr
  intro round
  rw [floor_div_eq_iff hlength, Nat.cast_sub hpays.2, le_sub_iff_add_le', sub_lt_iff_lt_add',
    InTreasuryInterval, hinterval]

end WholeInterval

/-- The index is one of the list, and its address is the one that is paid. -/
def PaysAddress (library : TransactionLibrary) (job : CoinbaseJob) : Prop :=
  job.rewardIndex < job.rewardAddresses.length ∧
    ∃ address, job.rewardAddresses[job.rewardIndex]? = some address ∧
      ∀ blockReward, job.createOutputs library blockReward =
        job.rewardOutputs library blockReward (some address)

theorem paysAddress_of_lt (h : job.networkParams.HasAddresses) (hreaches : job.ReachesSelection)
    (hlt : job.rewardIndex < job.rewardAddresses.length) : job.PaysAddress library := by
  refine ⟨hlt, job.rewardAddresses[job.rewardIndex], List.getElem?_eq_getElem hlt, ?_⟩
  intro blockReward
  rw [createOutputs_eq h hreaches, List.getElem?_eq_getElem hlt]

/-- Up to the last height of the founders, each of their addresses is used for one interval, and
from the first height of the treasury, each of its addresses for one interval of each round. That
interval has as many heights as are configured when these are a whole number. -/
theorem paysAddress_and_rewardIndex_eq_iff (library : TransactionLibrary) (job : CoinbaseJob)
    (h : job.networkParams.HasAddresses) (hreaches : job.ReachesSelection) :
    (job.PaysTreasury → job.PaysAddress library ∧
      ∀ index < job.networkParams.treasuryRewardAddresses.length,
        (job.treasuryAddressChanges < 2 ^ 1024 →
          (job.rewardIndex = index ↔ ∃ round, job.HasChanged
            (round * job.networkParams.treasuryRewardAddresses.length + index))) ∧
        ∀ interval : ℕ, job.networkParams.treasuryRewardAddressChangeInterval = interval →
          (job.rewardIndex = index ↔ ∃ round, job.InTreasuryInterval
            (round * job.networkParams.treasuryRewardAddresses.length + index))) ∧
    (¬ job.PaysTreasury →
      job.blockTemplate.height.toNat ≤ job.networkParams.lastFoundersRewardBlockHeight →
        job.PaysAddress library ∧
          ∀ index, job.rewardIndex = index ↔ job.InFoundersInterval index) := by
  constructor
  · intro hpays
    have hindex : job.rewardIndex = job.treasuryRewardIndex := if_pos hpays
    have haddresses : job.rewardAddresses = job.networkParams.treasuryRewardAddresses :=
      if_pos hpays
    constructor
    · apply paysAddress_of_lt h hreaches
      rw [hindex, haddresses]
      exact treasuryRewardIndex_lt h
    · intro index hlt
      rw [hindex]
      constructor
      · intro hfinite
        exact treasuryRewardIndex_eq_iff h hfinite hlt
      · intro interval hinterval
        exact treasuryRewardIndex_eq_iff_inTreasuryInterval h hinterval hpays hlt
  · intro hpays hle
    have hindex : job.rewardIndex = job.foundersRewardIndex := if_neg hpays
    have haddresses : job.rewardAddresses = job.networkParams.foundersRewardAddresses :=
      if_neg hpays
    constructor
    · apply paysAddress_of_lt h hreaches
      rw [hindex, haddresses]
      exact foundersRewardIndex_lt h hle
    · intro index
      rw [hindex]
      exact foundersRewardIndex_eq_iff h

end CoinbaseJob

/-! ### A network of the configuration -/

def zencashRegtest : EquihashNetworkParams where
  payFoundersReward := true
  percentFoundersReward := 17 / 2
  foundersRewardAddresses := ["zrKmSdqZKZjnARd5e8FfRg4v1m74X7twxGa"]
  foundersRewardSubsidyHalvingInterval := 2000
  percentTreasuryReward := 12
  treasuryRewardStartBlockHeight := 139200
  treasuryRewardAddresses := ["zrKmSdqZKZjnARd5e8FfRg4v1m74X7twxGa"]
  treasuryRewardAddressChangeInterval := 100

def zencashRegtestJob (height : UInt32) : CoinbaseJob where
  jobClass := .equihash
  blockTemplate := { height := height, coinbaseValue := 0 }
  networkParams := zencashRegtest
  poolAddressDestination := []

theorem zencashRegtest_hasAddresses : zencashRegtest.HasAddresses :=
  ⟨by decide, by decide, by decide, by decide, by decide⟩

theorem paysAddress_zencashRegtest :
    (zencashRegtestJob 139250).PaysAddress ⟨fun _ => [], fun _ => none, fun _ _ => []⟩ ∧
      (zencashRegtestJob 1999).PaysAddress ⟨fun _ => [], fun _ => none, fun _ _ => []⟩ := by
  constructor
  · exact ((CoinbaseJob.paysAddress_and_rewardIndex_eq_iff _ (zencashRegtestJob 139250)
      zencashRegtest_hasAddresses ⟨rfl, rfl, rfl, by decide⟩).1 (by decide)).1
  · exact ((CoinbaseJob.paysAddress_and_rewardIndex_eq_iff _ (zencashRegtestJob 1999)
      zencashRegtest_hasAddresses ⟨rfl, rfl, rfl, by decide⟩).2 (by decide) (by decide)).1

namespace EquihashNetworkParams

/-- At every height that pays founders or the treasury, there is an address. -/
def SelectsInRange (params : EquihashNetworkParams) : Prop :=
  ∀ job : CoinbaseJob, job.networkParams = params → job.ReachesSelection →
    job.rewardIndex < job.rewardAddresses.length

/-- The heights of an address of the treasury are one interval. -/
def UsesOneInterval (params : EquihashNetworkParams) : Prop :=
  ∀ index < params.treasuryRewardAddresses.length, ∃ first : ℕ, ∀ job : CoinbaseJob,
    job.networkParams = params → job.ReachesSelection → job.PaysTreasury →
      (job.rewardIndex = index ↔ (first : ℚ) ≤ job.blockTemplate.height.toNat ∧
        (job.blockTemplate.height.toNat : ℚ) < first + params.treasuryRewardAddressChangeInterval)

/-- Each address of the treasury is used for one interval of each round. -/
def UsesIntervals (params : EquihashNetworkParams) : Prop :=
  ∀ job : CoinbaseJob, job.networkParams = params → job.ReachesSelection → job.PaysTreasury →
    ∀ index < params.treasuryRewardAddresses.length,
      (job.rewardIndex = index ↔ ∃ round, job.InTreasuryInterval
        (round * params.treasuryRewardAddresses.length + index))

/-- Eleven addresses, with an interval that is no whole number. -/
def fractional : EquihashNetworkParams :=
  { zencashRegtest with
    treasuryRewardAddresses := List.replicate 11 "zrKmSdqZKZjnARd5e8FfRg4v1m74X7twxGa"
    treasuryRewardAddressChangeInterval := roundDouble (11 / 10) }

def fractionalJob : CoinbaseJob :=
  { zencashRegtestJob 139211 with networkParams := fractional }

/-- The double next to 1.1 is above it, but the quotient of 11 by it is rounded to 10. -/
theorem not_usesIntervals_fractional : ¬ fractional.UsesIntervals := by
  intro huses
  have hpays : fractionalJob.PaysTreasury := by decide
  have hindex : fractionalJob.rewardIndex = 10 := by decide +kernel
  obtain ⟨round, hlow, -⟩ := (huses fractionalJob rfl ⟨rfl, rfl, rfl, by decide⟩ hpays 10
    (by decide)).mp hindex
  have hheight : (fractionalJob.networkParams.treasuryRewardStartBlockHeight : ℚ) + 10 *
      roundDouble (11 / 10) ≤ fractionalJob.blockTemplate.height.toNat := by
    refine le_trans ?_ hlow
    apply add_le_add_right
    apply mul_le_mul_of_nonneg_right _ (roundDouble_nonneg (by norm_num))
    have hround : (10 : ℕ) ≤ round * fractional.treasuryRewardAddresses.length + 10 :=
      Nat.le_add_left _ _
    exact_mod_cast hround
  exact absurd hheight (by decide +kernel)

/-- Between the last height of the founders and the first of the treasury there is no address,
the only one of the treasury is used in all of its intervals, and an interval that is no whole
number is not kept. -/
theorem not_selectsInRange_and_usesOneInterval : zencashRegtest.HasAddresses ∧
    ¬ zencashRegtest.SelectsInRange ∧ ¬ zencashRegtest.UsesOneInterval ∧
      fractional.HasAddresses ∧ ¬ fractional.UsesIntervals := by
  refine ⟨zencashRegtest_hasAddresses, ?_, ?_, ?_, not_usesIntervals_fractional⟩
  · intro hrange
    have hlt := hrange (zencashRegtestJob 2000) rfl ⟨rfl, rfl, rfl, by decide⟩
    exact absurd hlt (by decide)
  · intro honce
    obtain ⟨first, hfirst⟩ := honce 0 (by decide)
    have hzero : ∀ height, (zencashRegtestJob height).PaysTreasury →
        (zencashRegtestJob height).rewardIndex = 0 := by
      intro height hpays
      have hlt := (zencashRegtestJob height).treasuryRewardIndex_lt zencashRegtest_hasAddresses
      exact (if_pos hpays).trans (Nat.lt_one_iff.mp hlt)
    have hearly := (hfirst (zencashRegtestJob 139200) rfl ⟨rfl, rfl, rfl, by decide⟩
      (by decide)).mp (hzero 139200 (by decide))
    have hlate := (hfirst (zencashRegtestJob 139300) rfl ⟨rfl, rfl, rfl, by decide⟩
      (by decide)).mp (hzero 139300 (by decide))
    have hle : (first : ℚ) ≤ 139200 := hearly.1
    have hlt : (139300 : ℚ) < first + 100 := hlate.2
    linarith
  · exact ⟨rfl, by decide, by decide, by decide, by decide +kernel⟩

end EquihashNetworkParams

end Miningcore.Equihash
