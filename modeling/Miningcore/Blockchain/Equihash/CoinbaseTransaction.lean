import Miningcore.Blockchain.Equihash.VeruscoinJob
import Miningcore.Extensions.UnsignedArithmetic
import Miningcore.Foundation.FloatingPoint

/-!
# The coinbase of an Equihash job

The reward of a template is split between the pool and the recipients that the
parameters of the network name. The outputs stand between a version and fields that
all jobs of the process share.

## Implementation notes

Scripts of heights, the Base58 alphabet and the version that the stream of Veruscoin
writes are parameters. Decimals are rational numbers, and so are doubles, whose operations
round. `none` is an exception, after which there is no job. A text that is missing is empty.
-/

namespace Miningcore.Equihash

open Foundation Bitcoin

/-- What the jobs use of the library for transactions. -/
structure TransactionLibrary where
  /-- The script of the input for a height. -/
  createCoinbase : ℕ → Bytes
  decodeBase58 : String → Option Bytes
  /-- What a stream writes when a version is set, and whether it is overwintered. -/
  zcashVersion : ℕ → Bool → Bytes

structure FundingStream where
  value : ℚ
  valueZat : ℚ
  address : String
deriving DecidableEq

structure ZCashBlockSubsidy where
  miner : ℚ
  founders : Option ℚ := none
  community : Option ℚ := none
  securenodes : Option ℚ := none
  supernodes : Option ℚ := none
  fundingStreams : Option (List FundingStream) := none
deriving DecidableEq

structure CoinbaseTemplate where
  height : UInt32
  coinbaseValue : ℤ
  subsidy : Option ZCashBlockSubsidy := none
  /-- The fees of the transactions. -/
  fees : List ℚ := []
  defaultWitnessCommitment : List Char := []
  solution : List Char := []
  /-- The data of the coinbase that the daemon has built. -/
  coinbaseTx : Option (List Char) := none
deriving DecidableEq

structure EquihashNetworkParams where
  payFoundersReward : Bool := false
  payFundingStream : Bool := false
  vOuts : Bool := false
  vPercentFoundersReward : ℚ := 0
  vTreasuryRewardAddress : String := ""
  vPercentTreasuryReward : ℚ := 0
  vSecureNodesRewardAddress : String := ""
  percentSecureNodesReward : ℚ := 0
  vSuperNodesRewardAddress : String := ""
  percentSuperNodesReward : ℚ := 0
  percentFoundersReward : ℚ := 0
  foundersRewardAddresses : List String := []
  foundersRewardSubsidySlowStartInterval : ℕ := 0
  foundersRewardSubsidyHalvingInterval : ℕ := 0
  percentTreasuryReward : ℚ := 0
  treasuryRewardStartBlockHeight : ℕ := 0
  treasuryRewardAddresses : List String := []
  treasuryRewardAddressChangeInterval : ℚ := 0
  overwinterActivationHeight : Option UInt32 := none
  overwinterTxVersion : Option UInt32 := none
  overwinterTxVersionGroupId : Option UInt32 := none
  saplingActivationHeight : Option UInt32 := none
  saplingTxVersion : Option UInt32 := none
  saplingTxVersionGroupId : Option UInt32 := none
deriving DecidableEq

/-- The classes of jobs that build a coinbase of their own kind. -/
inductive JobClass where
  | equihash
  | minexcoin
  | bitcoinGold
  | veruscoin
deriving DecidableEq

/-- What a job is initialised with. -/
structure CoinbaseJob where
  jobClass : JobClass
  blockTemplate : CoinbaseTemplate
  networkParams : EquihashNetworkParams
  poolAddressDestination : Bytes
deriving DecidableEq

/-- The serialization constants that are static. -/
structure StaticFields where
  txInputCount : UInt32 := 1
  txLockTime : UInt32 := 0
  txExpiryHeight : UInt32 := 0
  txBalance : ℤ := 0
  txVShieldedSpend : UInt32 := 0
  txVShieldedOutput : UInt32 := 0
  txJoinSplits : UInt32 := 0
deriving DecidableEq

abbrev Output := ℤ × Bytes

def satoshisPerBitcoin : ℚ := 100000000

/-- An amount of money, which is cut off to a `long`. -/
def money (amount : ℚ) : Option ℤ :=
  let satoshi := if 0 ≤ amount then amount.floor else -(-amount).floor
  if -2 ^ 63 ≤ satoshi ∧ satoshi < 2 ^ 63 then some satoshi else none

/-- The remainder of a division of doubles, which has the sign of the dividend and is exact. -/
def doubleRemainder (x y : ℚ) : ℚ := x - y * if 0 ≤ x / y then ⌊x / y⌋ else ⌈x / y⌉

def int32 (n : UInt32) : Bytes := littleEndian 4 n.toNat

/-- A `long` in eight bytes. -/
def int64 (n : ℤ) : Bytes := littleEndian 8 (n % 2 ^ 64).toNat

def varInt (n : ℕ) : Bytes := BitcoinJob.varInt n

def varBytes (bytes : Bytes) : Bytes := varInt bytes.length ++ bytes

namespace EquihashNetworkParams

variable (params : EquihashNetworkParams)

def lastFoundersRewardBlockHeight : ℕ :=
  subUlong (addUlong params.foundersRewardSubsidyHalvingInterval
    (params.foundersRewardSubsidySlowStartInterval / 2)) 1

/-- An upgrade of the network is configured and has been reached. -/
def isActive (version groupId activation : Option UInt32) (height : UInt32) : Bool :=
  version.isSome && groupId.isSome && activation.any fun activation =>
    0 < activation && activation ≤ height

def isSaplingActive (height : UInt32) : Bool :=
  isActive params.saplingTxVersion params.saplingTxVersionGroupId params.saplingActivationHeight
    height

def isOverwinterActive (height : UInt32) : Bool :=
  params.isSaplingActive height ||
    isActive params.overwinterTxVersion params.overwinterTxVersionGroupId
      params.overwinterActivationHeight height

end EquihashNetworkParams

namespace CoinbaseJob

variable (library : TransactionLibrary) (job : CoinbaseJob)

/-- `Init` of BitcoinGold looks for no upgrade. -/
def isSaplingActive : Bool :=
  job.jobClass ≠ .bitcoinGold && job.networkParams.isSaplingActive job.blockTemplate.height

def isOverwinterActive : Bool :=
  job.jobClass ≠ .bitcoinGold && job.networkParams.isOverwinterActive job.blockTemplate.height

def txVersion : UInt32 :=
  if job.isSaplingActive then job.networkParams.saplingTxVersion.getD 1
  else if job.isOverwinterActive then job.networkParams.overwinterTxVersion.getD 1
  else 1

def txVersionGroupId : UInt32 :=
  if job.isSaplingActive then job.networkParams.saplingTxVersionGroupId.getD 0
  else if job.isOverwinterActive then job.networkParams.overwinterTxVersionGroupId.getD 0
  else 0

/-- The reward as `Init` computes it, which BitcoinGold leaves at zero. -/
def blockReward : Option ℚ :=
  if job.jobClass = .bitcoinGold then some 0
  else if job.networkParams.payFundingStream then do
    let subsidy ← job.blockTemplate.subsidy
    let fundingStreams ← subsidy.fundingStreams
    some ((subsidy.miner + (fundingStreams.map FundingStream.value).sum) * satoshisPerBitcoin)
  else if job.networkParams.vOuts then do
    let subsidy ← job.blockTemplate.subsidy
    let community ← subsidy.community
    let securenodes ← subsidy.securenodes
    let supernodes ← subsidy.supernodes
    some ((subsidy.miner + community + securenodes + supernodes) * satoshisPerBitcoin)
  else if job.networkParams.payFoundersReward then do
    let subsidy ← job.blockTemplate.subsidy
    let founders ← subsidy.founders <|> subsidy.community
    some ((subsidy.miner + founders) * satoshisPerBitcoin)
  else
    match job.blockTemplate.subsidy with
    | some subsidy => some (subsidy.miner * satoshisPerBitcoin)
    | none => some job.blockTemplate.coinbaseValue

def rewardFees : ℚ := job.blockTemplate.fees.sum

/-- An address that stands for a script. -/
def foundersAddressToScriptDestination (address : String) : Option Bytes := do
  let decoded ← library.decodeBase58 address
  let hash := (decoded.drop 2).take 20
  if hash.length = 20 then some (0xa9 :: 0x14 :: hash ++ [0x87]) else none

/-- How many intervals have passed since the first height of the treasury, a quotient of doubles. -/
def treasuryAddressChanges : ℚ :=
  roundDouble (roundDouble (subUlong job.blockTemplate.height.toNat
      job.networkParams.treasuryRewardStartBlockHeight : ℕ) /
    job.networkParams.treasuryRewardAddressChangeInterval)

def getTreasuryRewardAddress : Option String :=
  let addresses := job.networkParams.treasuryRewardAddresses
  let changes := job.treasuryAddressChanges
  -- An infinite quotient has no remainder, and no number is cast to 0.
  if job.networkParams.treasuryRewardAddressChangeInterval = 0 ∨ 2 ^ 1024 ≤ |changes| then
    addresses[0]?
  else
    let index := ⌊doubleRemainder changes addresses.length⌋
    if index < 0 then none else addresses[index.toNat]?

def getFoundersRewardAddress : Option String :=
  let addresses := job.networkParams.foundersRewardAddresses
  if addresses.length = 0 then none
  else
    let addressChangeInterval :=
      addUlong job.networkParams.lastFoundersRewardBlockHeight addresses.length / addresses.length
    if addressChangeInterval = 0 then none
    else addresses[job.blockTemplate.height.toNat / addressChangeInterval]?

/-- The part of the reward that is left by a percentage, with the fees. -/
def poolOutput (reward percent : ℚ) : Option Output := do
  let rewardToPool ← money (roundHalfEven (reward * (1 - percent / 100)) + job.rewardFees)
  some (rewardToPool, job.poolAddressDestination)

/-- A percentage of the reward for an address. -/
def addressOutput (reward percent : ℚ) (address : Option String) : Option Output := do
  let address ← address
  let destination ← foundersAddressToScriptDestination library address
  let amount ← money (roundHalfEven (reward * (percent / 100)))
  some (amount, destination)

/-- The outputs of a job whose coin has no class of its own. -/
def createOutputs (blockReward : ℚ) : Option (List Output) :=
  let params := job.networkParams
  let height := job.blockTemplate.height.toNat
  if params.payFundingStream then do
    let pool ← job.poolOutput blockReward params.percentFoundersReward
    let subsidy ← job.blockTemplate.subsidy
    let fundingStreams ← subsidy.fundingStreams
    let outputs ← fundingStreams.mapM fun fundingStream => do
      let amount ← money (roundHalfEven fundingStream.valueZat)
      let destination ← foundersAddressToScriptDestination library fundingStream.address
      some (amount, destination)
    some (pool :: outputs)
  else if params.vOuts then do
    let pool ← job.poolOutput blockReward params.vPercentFoundersReward
    let treasury ← addressOutput library blockReward params.vPercentTreasuryReward
      params.vTreasuryRewardAddress
    let secureNodes ← addressOutput library blockReward params.percentSecureNodesReward
      params.vSecureNodesRewardAddress
    let superNodes ← addressOutput library blockReward params.percentSuperNodesReward
      params.vSuperNodesRewardAddress
    some [pool, treasury, secureNodes, superNodes]
  else if params.payFoundersReward ∧ (height ≤ params.lastFoundersRewardBlockHeight ∨
      0 < params.treasuryRewardStartBlockHeight) then
    if 0 < params.treasuryRewardStartBlockHeight ∧
        params.treasuryRewardStartBlockHeight ≤ height then do
      let pool ← job.poolOutput blockReward params.percentTreasuryReward
      let treasury ← addressOutput library blockReward params.percentTreasuryReward
        job.getTreasuryRewardAddress
      some [pool, treasury]
    else do
      let pool ← job.poolOutput blockReward params.percentFoundersReward
      let founders ← addressOutput library blockReward params.percentFoundersReward
        job.getFoundersRewardAddress
      some [pool, founders]
  else do
    let rewardToPool ← money (blockReward + job.rewardFees)
    some [(rewardToPool, job.poolAddressDestination)]

def minexcoinBlockReward : ℚ := 250000000

def bankScript : Bytes :=
  hexToByteArray
    "2103ae6efe9458f1d3bdd9a458b1970eabbdf9fcb1357e0dff2744a777ff43c391eeac".toList

/-- The share of the bank grows with the height. -/
def computeBankReward (blockHeight : UInt32) (totalReward : ℤ) : Option ℤ :=
  let tenth : ℚ := ((totalReward : ℚ) / 10).floor
  if blockHeight ≤ 4500000 then
    money (tenth * (2 + (((blockHeight.toNat : ℚ) - 1) / 900000).floor))
  else money (tenth * 7)

def createMinexcoinOutputs : Option (List Output) := do
  let totalReward ← money (minexcoinBlockReward + job.rewardFees)
  let bankReward ← computeBankReward job.blockTemplate.height totalReward
  some [(totalReward - bankReward, job.poolAddressDestination), (bankReward, bankScript)]

/-- `CreateOutputTransaction` of the class, for a reward that `Init` has computed. -/
def createOutputTransaction : Option (List Output) := do
  let blockReward ← job.blockReward
  match job.jobClass with
  | .equihash | .veruscoin => job.createOutputs library blockReward
  | .minexcoin => job.createMinexcoinOutputs
  | .bitcoinGold =>
      let rewardToPool ← money job.blockTemplate.coinbaseValue
      some [(rewardToPool, job.poolAddressDestination)]

def serializeOutput (output : Output) : Bytes := int64 output.1 ++ varBytes output.2

/-- The witness commitment stands behind the outputs, and in front of those of BitcoinGold. -/
def serializeOutputTransaction (outputs : List Output) : Bytes :=
  let witness :=
    if job.blockTemplate.defaultWitnessCommitment = [] then []
    else [serializeOutput (0, hexToByteArray job.blockTemplate.defaultWitnessCommitment)]
  let serialized := outputs.map serializeOutput
  varInt (serialized.length + witness.length) ++
    (if job.jobClass = .bitcoinGold then witness ++ serialized else serialized ++ witness).flatten

/-- What stands in front of the input. -/
def serializeVersion : Bytes :=
  match job.jobClass with
  | .equihash | .minexcoin =>
      if job.isOverwinterActive then
        int32 (job.txVersion ||| 0x80000000) ++ int32 job.txVersionGroupId
      else int32 job.txVersion
  | .bitcoinGold => int32 job.txVersion
  | .veruscoin => library.zcashVersion job.txVersion.toNat job.isOverwinterActive

/-- The input, whose script is that of the height. -/
def serializeInput (fields : StaticFields) : Bytes :=
  varInt fields.txInputCount.toNat ++ List.replicate 32 0 ++ int32 0xffffffff ++
    varBytes (library.createCoinbase job.blockTemplate.height.toNat) ++ int32 0xffffffff

/-- The coinbase as far as the lock time. -/
def serializeStart (fields : StaticFields) : Option Bytes := do
  let outputs ← job.createOutputTransaction library
  some (job.serializeVersion library ++ job.serializeInput library fields ++
    job.serializeOutputTransaction outputs ++ int32 fields.txLockTime)

/-- Whether the fields of an upgrade follow the lock time. -/
def hasUpgrade : Bool :=
  job.jobClass ≠ .bitcoinGold && (job.isOverwinterActive || job.isSaplingActive)

/-- The fields of an upgrade. -/
def serializeUpgrade (fields : StaticFields) : Bytes :=
  int32 fields.txExpiryHeight ++
    (if job.isSaplingActive then
      int64 fields.txBalance ++ varInt fields.txVShieldedSpend.toNat ++
        varInt fields.txVShieldedOutput.toNat
    else []) ++
    varInt fields.txJoinSplits.toNat

/-- The version of the solution of a template that is long enough for one. -/
def isPBaaSActive : Option Bool :=
  if job.blockTemplate.solution.length < 8 then none
  else some (6 < hexValue (toHexString
    (hexToReverseByteArray (job.blockTemplate.solution.take 8))))

end CoinbaseJob

end Miningcore.Equihash
