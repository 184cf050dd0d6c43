import Miningcore.Blockchain.Equihash.CoinbaseTransaction

/-!
# The value of an Equihash coinbase

The parts of a reward are rounded one by one, and the fees are added to that of the
pool. The outputs pay the reward just if as many parts are rounded up as the whole
numbers below them leave. Minexcoin pays its pool what the bank leaves instead.

## Main results

* `outputs_pay_iff`
-/

namespace Miningcore.Equihash

open Foundation

/-- The amounts are exactly so much together, and none of them is negative. -/
def Pays (amounts : List ℤ) (value : ℚ) : Prop :=
  ((amounts.sum : ℤ) : ℚ) = value ∧ ∀ amount ∈ amounts, 0 ≤ amount

/-- An amount without its fraction. -/
def truncated (x : ℚ) : ℤ := if 0 ≤ x then ⌊x⌋ else ⌈x⌉

theorem truncated_intCast (n : ℤ) : truncated n = n := by
  rw [truncated, Int.floor_intCast, Int.ceil_intCast, ite_self]

/-- How a reward is divided before its parts are rounded. -/
inductive Division where
  | undivided
  /-- A percentage of the reward for an address, and the rest for the pool. -/
  | percentage (percent : ℚ)
  /-- Parts that are configured or listed apart from each other. -/
  | parts (pool : ℚ) (others : List ℚ)

/-- The rounded parts, the pool's first and with the fees. -/
def roundedParts (fees pool : ℚ) (others : List ℚ) : List ℤ :=
  truncated (roundHalfEven pool + fees) :: others.map roundHalfEven

/-- The reward with the fees is whole, no part is too far below zero, and as many parts are
rounded up as their floors leave of the reward. -/
structure SplitsExactly (reward fees pool : ℚ) (others : List ℚ) : Prop where
  isWhole : ∃ n : ℤ, reward + fees = n
  pool_gt : -1 < roundHalfEven pool + fees
  others_ge : ∀ part ∈ others, -1 / 2 ≤ part
  countP_roundsUp : ((pool :: others).countP RoundsUp : ℤ) =
    (if 0 ≤ roundHalfEven pool + fees then ⌈reward⌉ else ⌊reward⌋) -
      ((pool :: others).map Int.floor).sum

namespace Division

variable (reward fees : ℚ)

def amounts : Division → List ℤ
  | undivided => [truncated (reward + fees)]
  | percentage percent =>
      roundedParts fees (reward * (1 - percent / 100)) [reward * (percent / 100)]
  | parts pool others => roundedParts fees pool others

/-- The condition under which nothing is lost or made up by rounding. -/
def IsExact : Division → Prop
  | undivided => 0 ≤ reward + fees ∧ ∃ n : ℤ, reward + fees = n
  | percentage percent =>
      SplitsExactly reward fees (reward * (1 - percent / 100)) [reward * (percent / 100)]
  | parts pool others => SplitsExactly reward fees pool others

end Division

/-- The division that the parameters of the network and the template ask for. -/
def CoinbaseJob.division (job : CoinbaseJob) (reward : ℚ) : Division :=
  let params := job.networkParams
  let height := job.blockTemplate.height.toNat
  if params.payFundingStream then
    let fundingStreams := (job.blockTemplate.subsidy.bind ZCashBlockSubsidy.fundingStreams).getD []
    .parts (reward * (1 - params.percentFoundersReward / 100))
      (fundingStreams.map FundingStream.valueZat)
  else if params.vOuts then
    .parts (reward * (1 - params.vPercentFoundersReward / 100))
      [reward * (params.vPercentTreasuryReward / 100),
        reward * (params.percentSecureNodesReward / 100),
        reward * (params.percentSuperNodesReward / 100)]
  else if params.payFoundersReward ∧ (height ≤ params.lastFoundersRewardBlockHeight ∨
      0 < params.treasuryRewardStartBlockHeight) then
    if 0 < params.treasuryRewardStartBlockHeight ∧
        params.treasuryRewardStartBlockHeight ≤ height then
      .percentage params.percentTreasuryReward
    else .percentage params.percentFoundersReward
  else .undivided

/-! ### The amounts of the outputs -/

section outputs

variable {library : TransactionLibrary} {job : CoinbaseJob} {reward percent : ℚ}

theorem eq_truncated_of_money {amount : ℚ} {satoshi : ℤ} (h : money amount = some satoshi) :
    satoshi = truncated amount := by
  rw [money, Option.ite_none_right_eq_some] at h
  rw [truncated, ← Option.some.inj h.2]
  have hceil : -(-amount).floor = ⌈amount⌉ := by
    rw [← neg_neg ⌈amount⌉, ← Int.floor_neg]
    rfl
  rw [hceil]
  rfl

theorem eq_of_money_intCast {n satoshi : ℤ} (h : money n = some satoshi) : satoshi = n := by
  rw [eq_truncated_of_money h, truncated_intCast]

theorem fst_poolOutput {output : Output} (h : job.poolOutput reward percent = some output) :
    output.1 = truncated (roundHalfEven (reward * (1 - percent / 100)) + job.rewardFees) := by
  obtain ⟨rewardToPool, hmoney, houtput⟩ := Option.bind_eq_some_iff.mp h
  rw [← Option.some.inj houtput]
  exact eq_truncated_of_money hmoney

theorem fst_addressOutput {address : Option String} {output : Output}
    (h : CoinbaseJob.addressOutput library reward percent address = some output) :
    output.1 = roundHalfEven (reward * (percent / 100)) := by
  obtain ⟨address', -, h⟩ := Option.bind_eq_some_iff.mp h
  obtain ⟨destination, -, h⟩ := Option.bind_eq_some_iff.mp h
  obtain ⟨amount, hmoney, houtput⟩ := Option.bind_eq_some_iff.mp h
  rw [← Option.some.inj houtput]
  exact eq_of_money_intCast hmoney

theorem map_fst_fundingStreams {fundingStreams : List FundingStream} {outputs : List Output}
    (h : (fundingStreams.mapM fun fundingStream => do
      let amount ← money (roundHalfEven fundingStream.valueZat)
      let destination ← CoinbaseJob.foundersAddressToScriptDestination library fundingStream.address
      some (amount, destination)) = some outputs) :
    outputs.map Prod.fst =
      (fundingStreams.map FundingStream.valueZat).map roundHalfEven := by
  induction fundingStreams generalizing outputs with
  | nil =>
      rw [List.mapM_nil] at h
      rw [← Option.some.inj h]
      rfl
  | cons fundingStream fundingStreams ih =>
      rw [List.mapM_cons] at h
      obtain ⟨output, houtput, h⟩ := Option.bind_eq_some_iff.mp h
      obtain ⟨rest, hrest, h⟩ := Option.bind_eq_some_iff.mp h
      obtain ⟨amount, hmoney, houtput⟩ := Option.bind_eq_some_iff.mp houtput
      obtain ⟨destination, -, houtput⟩ := Option.bind_eq_some_iff.mp houtput
      rw [← Option.some.inj h, ← Option.some.inj houtput, List.map_cons, ih hrest]
      simp [eq_of_money_intCast hmoney]

/-- The outputs have the amounts of the division. -/
theorem map_fst_createOutputs {outputs : List Output}
    (h : job.createOutputs library reward = some outputs) :
    outputs.map Prod.fst = (job.division reward).amounts reward job.rewardFees := by
  dsimp only [CoinbaseJob.createOutputs] at h
  rw [CoinbaseJob.division]
  split at h
  · rename_i hstream
    obtain ⟨pool, hpool, h⟩ := Option.bind_eq_some_iff.mp h
    obtain ⟨subsidy, hsubsidy, h⟩ := Option.bind_eq_some_iff.mp h
    obtain ⟨fundingStreams, hstreams, h⟩ := Option.bind_eq_some_iff.mp h
    obtain ⟨others, hothers, h⟩ := Option.bind_eq_some_iff.mp h
    rw [if_pos hstream, hsubsidy, Option.bind_some, hstreams, Option.getD_some,
      ← Option.some.inj h, List.map_cons, fst_poolOutput hpool, map_fst_fundingStreams hothers]
    rfl
  · rename_i hstream
    rw [if_neg hstream]
    split at h
    · rename_i houts
      obtain ⟨pool, hpool, h⟩ := Option.bind_eq_some_iff.mp h
      obtain ⟨treasury, htreasury, h⟩ := Option.bind_eq_some_iff.mp h
      obtain ⟨secureNodes, hsecure, h⟩ := Option.bind_eq_some_iff.mp h
      obtain ⟨superNodes, hsuper, h⟩ := Option.bind_eq_some_iff.mp h
      rw [if_pos houts, ← Option.some.inj h, List.map_cons, List.map_cons, List.map_cons,
        List.map_singleton, fst_poolOutput hpool, fst_addressOutput htreasury,
        fst_addressOutput hsecure, fst_addressOutput hsuper]
      rfl
    · rename_i houts
      rw [if_neg houts]
      split at h
      · rename_i hfounders
        rw [if_pos hfounders]
        split at h
        · rename_i hheight
          obtain ⟨pool, hpool, h⟩ := Option.bind_eq_some_iff.mp h
          obtain ⟨treasury, htreasury, h⟩ := Option.bind_eq_some_iff.mp h
          rw [if_pos hheight, ← Option.some.inj h, List.map_cons, List.map_singleton,
            fst_poolOutput hpool, fst_addressOutput htreasury]
          rfl
        · rename_i hheight
          obtain ⟨pool, hpool, h⟩ := Option.bind_eq_some_iff.mp h
          obtain ⟨founders, hrecipient, h⟩ := Option.bind_eq_some_iff.mp h
          rw [if_neg hheight, ← Option.some.inj h, List.map_cons, List.map_singleton,
            fst_poolOutput hpool, fst_addressOutput hrecipient]
          rfl
      · rename_i hfounders
        obtain ⟨rewardToPool, hmoney, h⟩ := Option.bind_eq_some_iff.mp h
        rw [if_neg hfounders, ← Option.some.inj h, List.map_singleton,
          eq_truncated_of_money hmoney]
        rfl

end outputs

/-! ### What they add up to -/

section sums

variable {reward fees pool percent : ℚ} {others : List ℚ}

theorem truncated_intCast_add (n : ℤ) (x : ℚ) :
    truncated (n + x) = n + if 0 ≤ n + x then ⌊x⌋ else ⌈x⌉ := by
  rw [truncated, Int.floor_intCast_add, Int.ceil_intCast_add]
  split <;> rfl

theorem truncated_nonneg_iff (x : ℚ) : 0 ≤ truncated x ↔ -1 < x := by
  rw [truncated]
  split
  · rename_i h
    exact iff_of_true (Int.floor_nonneg.mpr h) (by linarith)
  · rw [← Int.sub_one_lt_iff, Int.lt_ceil]
    simp

theorem pays_roundedParts_iff :
    Pays (roundedParts fees pool others) (reward + fees) ↔
      SplitsExactly reward fees pool others := by
  have hsum : ((roundedParts fees pool others).sum : ℤ) =
      (((pool :: others).map roundHalfEven).sum +
        if 0 ≤ roundHalfEven pool + fees then ⌊fees⌋ else ⌈fees⌉ : ℤ) := by
    rw [roundedParts, List.sum_cons, truncated_intCast_add, List.map_cons, List.sum_cons]
    ring
  have hnonneg : (∀ amount ∈ roundedParts fees pool others, 0 ≤ amount) ↔
      -1 < roundHalfEven pool + fees ∧ ∀ part ∈ others, -1 / 2 ≤ part := by
    rw [roundedParts, List.forall_mem_cons, truncated_nonneg_iff, List.forall_mem_map]
    simp only [roundHalfEven_nonneg_iff]
  have hexact : ((roundedParts fees pool others).sum : ℚ) = reward + fees ↔
      (∃ n : ℤ, reward + fees = n) ∧ ((pool :: others).map roundHalfEven).sum =
        if 0 ≤ roundHalfEven pool + fees then ⌈reward⌉ else ⌊reward⌋ := by
    rw [hsum]
    split
    · exact add_floor_eq_iff _ _ _
    · exact add_ceil_eq_iff _ _ _
  rw [Pays, hexact, hnonneg, sum_roundHalfEven]
  constructor
  · rintro ⟨⟨hwhole, hcount⟩, hpool, hothers⟩
    exact ⟨hwhole, hpool, hothers, by rw [← hcount]; ring⟩
  · rintro ⟨hwhole, hpool, hothers, hcount⟩
    exact ⟨⟨hwhole, by rw [hcount]; ring⟩, hpool, hothers⟩

theorem pays_amounts_iff (division : Division) :
    Pays (division.amounts reward fees) (reward + fees) ↔ division.IsExact reward fees := by
  cases division with
  | undivided =>
      rw [Division.amounts, Division.IsExact, Pays, List.sum_singleton]
      constructor
      · rintro ⟨hsum, hnonneg⟩
        have hcast : (0 : ℚ) ≤ truncated (reward + fees) :=
          Int.cast_nonneg (hnonneg _ List.mem_cons_self)
        exact ⟨hsum ▸ hcast, truncated (reward + fees), hsum.symm⟩
      · rintro ⟨hnonneg, n, hn⟩
        rw [hn] at hnonneg ⊢
        rw [truncated_intCast]
        exact ⟨rfl, by simpa using hnonneg⟩
  | percentage percent => exact pays_roundedParts_iff
  | parts pool others => exact pays_roundedParts_iff

/-- A percentage of a whole reward. -/
theorem splitsExactly_percentage_iff (r f : ℤ) :
    SplitsExactly r f (r * (1 - percent / 100)) [r * (percent / 100)] ↔
      0 ≤ roundHalfEven (r * (1 - percent / 100)) + f ∧ -1 / 2 ≤ r * (percent / 100) ∧
        ¬ (Odd r ∧ Int.fract (r * (percent / 100)) = 1 / 2) := by
  have hpool : (r : ℚ) * (1 - percent / 100) = r - r * (percent / 100) := by ring
  rw [← pays_roundedParts_iff, hpool, Pays, roundedParts, ← Int.cast_add, ← Int.cast_add,
    truncated_intCast, List.map_singleton, List.sum_pair, List.forall_mem_cons,
    List.forall_mem_singleton, Int.cast_inj, roundHalfEven_nonneg_iff, ← roundHalfEven_sub_add_iff]
  have hsum : roundHalfEven (r - r * (percent / 100)) + f + roundHalfEven (r * (percent / 100)) =
      r + f ↔
      roundHalfEven (r - r * (percent / 100)) + roundHalfEven (r * (percent / 100)) = r := by
    omega
  rw [hsum, and_comm, and_assoc]

end sums

/-- The outputs pay the reward and the fees exactly and none is negative just if the division of
the reward is exact; for a percentage of whole amounts this fails between parts that are not
negative only for an odd reward whose part is halfway between integers. -/
theorem outputs_pay_iff (library : TransactionLibrary) (job : CoinbaseJob) {outputs : List Output}
    (hclass : job.jobClass = .equihash ∨ job.jobClass = .veruscoin)
    (houtputs : job.createOutputTransaction library = some outputs) :
    ∃ reward, job.blockReward = some reward ∧
      (Pays (outputs.map Prod.fst) (reward + job.rewardFees) ↔
        (job.division reward).IsExact reward job.rewardFees) ∧
      ∀ (percent : ℚ) (r f : ℤ), job.division reward = .percentage percent → reward = r →
        job.rewardFees = f →
          (Pays (outputs.map Prod.fst) (reward + job.rewardFees) ↔
            0 ≤ roundHalfEven (r * (1 - percent / 100)) + f ∧ -1 / 2 ≤ r * (percent / 100) ∧
              ¬ (Odd r ∧ Int.fract (r * (percent / 100)) = 1 / 2)) := by
  obtain ⟨reward, hreward, hcreate⟩ := Option.bind_eq_some_iff.mp houtputs
  have houtputs' : job.createOutputs library reward = some outputs := by
    rcases hclass with hclass | hclass
    · rw [hclass] at hcreate
      exact hcreate
    · rw [hclass] at hcreate
      exact hcreate
  have hpays : Pays (outputs.map Prod.fst) (reward + job.rewardFees) ↔
      (job.division reward).IsExact reward job.rewardFees := by
    rw [map_fst_createOutputs houtputs']
    exact pays_amounts_iff _
  refine ⟨reward, hreward, hpays, fun percent r f hdivision hr hf => ?_⟩
  rw [hpays, hdivision, hr, hf]
  exact splitsExactly_percentage_iff r f

namespace Tie

def address : String := "t3Vz22vK5z2LcKEdg16Yv4FFneEL1zg9ojd"

/-- The version, the hash and the checksum of the address. -/
def decodedAddress : Bytes :=
  [0x1c, 0xbd, 0x7d, 0x46, 0xa7, 0x30, 0xd3, 0x1f, 0x97, 0xb1, 0x93, 0x0d, 0x33,
    0x68, 0xa9, 0x67, 0xc3, 0x09, 0xbd, 0x4d, 0x13, 0x6a, 0x61, 0x7d, 0x7f, 0xf0]

/-- A library for heights of one byte and one address. -/
def library : TransactionLibrary where
  createCoinbase height := [1, UInt8.ofNat height, 0]
  decodeBase58 text := if text = address then some decodedAddress else none
  zcashVersion version _ := Bitcoin.littleEndian 4 version

/-- A tenth of an odd reward goes to the founders. -/
def job : CoinbaseJob where
  jobClass := .equihash
  blockTemplate :=
    { height := 100
      coinbaseValue := 1250000005
      subsidy := some { miner := 1125000005 / 100000000, founders := some (5 / 4) }
      fees := [300, 200] }
  networkParams :=
    { payFoundersReward := true
      percentFoundersReward := 10
      foundersRewardAddresses := [address]
      foundersRewardSubsidyHalvingInterval := 840000 }
  poolAddressDestination := []

end Tie

open Tie in
theorem createOutputTransaction_tie :
    (job.createOutputTransaction library).map (List.map Prod.fst) =
      some [1125000504, 125000000] := by
  decide +kernel

open Tie in
/-- The parts of 1250000005 are both rounded down. -/
theorem not_outputs_pay :
    job.blockReward = some 1250000005 ∧ job.rewardFees = 500 ∧
      ∃ outputs, job.createOutputTransaction library = some outputs ∧
        ¬ Pays (outputs.map Prod.fst) (1250000005 + 500) := by
  refine ⟨by decide +kernel, by decide +kernel, ?_⟩
  obtain ⟨outputs, houtputs, hamounts⟩ := Option.map_eq_some_iff.mp createOutputTransaction_tie
  refine ⟨outputs, houtputs, ?_⟩
  rw [hamounts, Pays]
  norm_num

open Tie in
theorem not_isExact_tie : ¬ (job.division 1250000005).IsExact 1250000005 500 := by
  obtain ⟨outputs, houtputs, hamounts⟩ := Option.map_eq_some_iff.mp createOutputTransaction_tie
  obtain ⟨reward, hreward, hpays, -⟩ := outputs_pay_iff library job (Or.inl rfl) houtputs
  have hvalue : job.blockReward = some 1250000005 := by decide +kernel
  have hfees : job.rewardFees = 500 := by decide +kernel
  obtain rfl : 1250000005 = reward := Option.some.inj (hvalue.symm.trans hreward)
  rw [← hfees, ← hpays, hfees, hamounts, Pays]
  norm_num

end Miningcore.Equihash
