import Miningcore.Extensions.HexParsing

/-!
# Outputs of the coinbase

The reward of a block template is split among the sections the coin has. Most
sections take their payments from the reward, three pay on top of it, and the
pool gets what remains.

## Implementation notes

Money, addresses and the conversion of a section's JSON are parameters. `none`
is an exception, after which there is no job. A text that is missing is empty.
-/

namespace Miningcore.Bitcoin

abbrev Script := List UInt8

/-- An amount of satoshis: its conversion from a `long` or an `ulong` and its subtraction, which
may overflow. -/
structure MoneyLibrary (Money : Type) where
  ofInteger : Int → Option Money
  subtract : Money → Money → Option Money
  satoshi : Money → Int64

structure TxOut (Money : Type) where
  value : Money
  scriptPubKey : Script
deriving DecidableEq

/-- A JSON value and what it converts to: `none` when it does not convert, and an entry that is
`none` for a null. -/
inductive JToken (α : Type) where
  | array (entries : Option (List (Option α)))
  | object (entry : Option (Option α))
deriving DecidableEq

/-- An entry of the sections `masternode`, `founder`, `fortune`, `community`, `datamining` and
`developer`. -/
structure TemplateReward where
  payee : String := ""
  script : List Char := []
  amount : Int64
deriving DecidableEq

structure SuperBlock where
  payee : String
  amount : Int64
deriving DecidableEq

structure PayeeBlockTemplateExtra where
  payee : String := ""
  payeeAmount : Option Int64 := none
deriving DecidableEq

structure MasterNodeBlockTemplateExtra extends PayeeBlockTemplateExtra where
  masternode : Option (JToken TemplateReward) := none
  superBlocks : List SuperBlock := []
  /-- The further member `smartnode`. -/
  smartnode : Option (JToken TemplateReward) := none
deriving DecidableEq

structure MinerFundTemplateExtra where
  addresses : List String := []
  minimumValue : UInt64 := 0
deriving DecidableEq

structure CoinbaseDevReward where
  scriptPubkey : List Char := []
  value : Int64
deriving DecidableEq

structure CoinbaseStakingRewardTemplateExtra where
  payoutScript : List Char := []
  minimumValue : UInt64 := 0
deriving DecidableEq

/-- What the sections of a template convert to; `none` for a section that does not convert. -/
structure TemplateExtra where
  payee : Option PayeeBlockTemplateExtra := none
  masternode : Option MasterNodeBlockTemplateExtra := none
  founder : Option (Option (JToken TemplateReward)) := none
  fortune : Option (Option (JToken TemplateReward)) := none
  minerFund : Option MinerFundTemplateExtra := none
  coinbaseDevReward : Option (Option (JToken CoinbaseDevReward)) := none
  coinbaseStakingReward : Option CoinbaseStakingRewardTemplateExtra := none
  community : Option (Option (JToken TemplateReward)) := none
  dataMining : Option (Option (JToken TemplateReward)) := none
  developer : Option (Option (JToken TemplateReward)) := none
deriving DecidableEq

structure BlockTemplate where
  previousBlockhash : String
  height : Nat
  coinbaseValue : Int64
  communityAutonomousAddress : String := ""
  communityAutonomousValue : Int64 := 0
  extra : TemplateExtra := {}
deriving DecidableEq

structure BitcoinTemplate where
  hasPayee : Bool := false
  hasMasterNodes : Bool := false
  hasSmartNodes : Bool := false
  hasFounderFee : Bool := false
  hasFortuneReward : Bool := false
  hasMinerFund : Bool := false
  hasCommunityAddress : Bool := false
  hasCoinbaseDevReward : Bool := false
  hasCoinbaseStakingReward : Bool := false
  hasCommunity : Bool := false
  hasDataMining : Bool := false
  hasDeveloper : Bool := false
deriving DecidableEq

/-- What a job knows when it creates its outputs. -/
structure CoinbaseJob where
  coin : BitcoinTemplate
  blockTemplate : BlockTemplate
  poolAddressDestination : Script
  masterNodeParameters : Option MasterNodeBlockTemplateExtra := none
  addressToDestination : String → Option Script

/-- The part of `Init` that reads the masternode section. -/
def masterNodeParametersOf (coin : BitcoinTemplate) (extra : TemplateExtra) :
    Option MasterNodeBlockTemplateExtra :=
  extra.masternode.map fun parameters =>
    if coin.hasSmartNodes ∧ parameters.smartnode.isSome then
      { parameters with masternode := parameters.smartnode }
    else parameters

def CoinbaseJob.init (coin : BitcoinTemplate) (addressToDestination : String → Option Script)
    (blockTemplate : BlockTemplate) (poolAddressDestination : Script) : Option CoinbaseJob :=
  let job : CoinbaseJob := { coin, blockTemplate, poolAddressDestination, addressToDestination }
  if coin.hasMasterNodes then
    (masterNodeParametersOf coin blockTemplate.extra).map fun parameters =>
      { job with masterNodeParameters := some parameters }
  else some job

/-- The outputs so far and the reward that remains. -/
structure Allocation (Money : Type) where
  outputs : List (TxOut Money) := []
  reward : Money
deriving DecidableEq

section routines

variable {Money : Type} (money : MoneyLibrary Money)

/-- `tx.Outputs.Add`, with or without `reward -= payeeReward`. -/
def addOutput (deduct : Bool) (scriptPubKey : Option Script) (value : Option Money)
    (allocation : Allocation Money) : Option (Allocation Money) :=
  scriptPubKey.bind fun scriptPubKey => value.bind fun value =>
    let reward? :=
      if deduct then money.subtract allocation.reward value else some allocation.reward
    reward?.map fun reward =>
      { outputs := allocation.outputs ++ [{ value, scriptPubKey }], reward }

/-- The loop over the entries of a section, which skips those without a recipient. -/
def addRewards {α : Type} (deduct : Bool) (hasRecipient : α → Bool)
    (scriptPubKey : α → Option Script) (amount : α → Int64) :
    List (Option α) → Allocation Money → Option (Allocation Money)
  | [], allocation => some allocation
  | none :: _, _ => none
  | some entry :: rest, allocation =>
      if hasRecipient entry then
        (addOutput money deduct (scriptPubKey entry) (money.ofInteger (amount entry).toInt)
          allocation).bind (addRewards deduct hasRecipient scriptPubKey amount rest)
      else addRewards deduct hasRecipient scriptPubKey amount rest allocation

namespace JToken

variable {α : Type}

/-- The array, or the one value in an array. -/
def entries : JToken α → Option (List (Option α))
  | array entries => entries
  | object entry => entry.map fun entry => [entry]

/-- The one value in an array; an array does not convert to it. -/
def entry : JToken α → Option (List (Option α))
  | array _ => none
  | object entry => entry.map fun entry => [entry]

end JToken

/-- A section whose entries name a payee. -/
def addPayeeRewards (job : CoinbaseJob) (deduct : Bool)
    (section? : Option (JToken TemplateReward)) (allocation : Allocation Money) :
    Option (Allocation Money) :=
  match section? with
  | none => some allocation
  | some token => token.entries.bind fun entries =>
      addRewards money deduct (fun entry => entry.payee ≠ "")
        (fun entry => job.addressToDestination entry.payee) TemplateReward.amount entries allocation

/-- A section whose entries carry a script. -/
def addScriptRewards (deduct : Bool) (section? : Option (JToken TemplateReward))
    (allocation : Allocation Money) : Option (Allocation Money) :=
  match section? with
  | none => some allocation
  | some token => token.entries.bind fun entries =>
      addRewards money deduct (fun entry => entry.script ≠ [])
        (fun entry => some (hexToByteArray entry.script)) TemplateReward.amount entries allocation

namespace CoinbaseJob

variable (job : CoinbaseJob)

def createPayeeOutput (allocation : Allocation Money) : Option (Allocation Money) :=
  match job.blockTemplate.extra.payee with
  | some { payee, payeeAmount := some amount } =>
      if 0 < amount then
        addOutput money true (job.addressToDestination payee) (money.ofInteger amount.toInt)
          allocation
      else some allocation
  | _ => some allocation

def createMasternodeOutputs (allocation : Allocation Money) : Option (Allocation Money) := do
  let parameters ← job.masterNodeParameters
  let allocation ← addPayeeRewards money job true parameters.masternode allocation
  let allocation ← addRewards money true (fun _ => true)
    (fun superBlock : SuperBlock => job.addressToDestination superBlock.payee) SuperBlock.amount
    (parameters.superBlocks.map some) allocation
  if !job.coin.hasPayee && parameters.payee ≠ "" then
    addOutput money true (job.addressToDestination parameters.payee)
      (parameters.payeeAmount.bind fun amount => money.ofInteger amount.toInt) allocation
  else return allocation

def createFounderOutputs (allocation : Allocation Money) : Option (Allocation Money) := do
  addPayeeRewards money job true (← job.blockTemplate.extra.founder) allocation

def createFortuneOutputs (allocation : Allocation Money) : Option (Allocation Money) := do
  addPayeeRewards money job true (← job.blockTemplate.extra.fortune) allocation

def createMinerFundOutputs (allocation : Allocation Money) : Option (Allocation Money) := do
  let parameters ← job.blockTemplate.extra.minerFund
  let address := parameters.addresses.headD ""
  if address ≠ "" then
    addOutput money true (job.addressToDestination address)
      (money.ofInteger parameters.minimumValue.toNat) allocation
  else return allocation

def createCommunityAddressOutputs (allocation : Allocation Money) : Option (Allocation Money) :=
  if 0 < job.blockTemplate.communityAutonomousValue then
    addOutput money false (job.addressToDestination job.blockTemplate.communityAutonomousAddress)
      (money.ofInteger job.blockTemplate.communityAutonomousValue.toInt) allocation
  else some allocation

def createCoinbaseDevRewardOutputs (allocation : Allocation Money) :
    Option (Allocation Money) := do
  match ← job.blockTemplate.extra.coinbaseDevReward with
  | none => return allocation
  | some token =>
      addRewards money false (fun entry => entry.scriptPubkey ≠ [])
        (fun entry => some (hexToByteArray entry.scriptPubkey)) CoinbaseDevReward.value
        (← token.entry) allocation

def createCoinbaseStakingRewardOutputs (allocation : Allocation Money) :
    Option (Allocation Money) := do
  let parameters ← job.blockTemplate.extra.coinbaseStakingReward
  if parameters.payoutScript ≠ [] then
    addOutput money true (some (hexToByteArray parameters.payoutScript))
      (money.ofInteger parameters.minimumValue.toNat) allocation
  else return allocation

def createCommunityOutputs (allocation : Allocation Money) : Option (Allocation Money) := do
  addScriptRewards money true (← job.blockTemplate.extra.community) allocation

def createDataMiningOutputs (allocation : Allocation Money) : Option (Allocation Money) := do
  addScriptRewards money false (← job.blockTemplate.extra.dataMining) allocation

def createDeveloperOutputs (allocation : Allocation Money) : Option (Allocation Money) := do
  addScriptRewards money true (← job.blockTemplate.extra.developer) allocation

/-- A routine for a coin that has its section. -/
def createIf (has : Bool) (routine : Allocation Money → Option (Allocation Money))
    (allocation : Allocation Money) : Option (Allocation Money) :=
  if has then routine allocation else some allocation

def createOutputTransaction : Option (List (TxOut Money)) := do
  let coin := job.coin
  let reward ← money.ofInteger job.blockTemplate.coinbaseValue.toInt
  let allocation ← createIf coin.hasPayee (job.createPayeeOutput money) { reward }
  let allocation ← createIf coin.hasMasterNodes (job.createMasternodeOutputs money) allocation
  let allocation ← createIf coin.hasFounderFee (job.createFounderOutputs money) allocation
  let allocation ← createIf coin.hasFortuneReward (job.createFortuneOutputs money) allocation
  let allocation ← createIf coin.hasMinerFund (job.createMinerFundOutputs money) allocation
  let allocation ← createIf coin.hasCommunityAddress (job.createCommunityAddressOutputs money)
    allocation
  let allocation ← createIf coin.hasCoinbaseDevReward (job.createCoinbaseDevRewardOutputs money)
    allocation
  let allocation ← createIf coin.hasCoinbaseStakingReward
    (job.createCoinbaseStakingRewardOutputs money) allocation
  let allocation ← createIf coin.hasCommunity (job.createCommunityOutputs money) allocation
  let allocation ← createIf coin.hasDataMining (job.createDataMiningOutputs money) allocation
  let allocation ← createIf coin.hasDeveloper (job.createDeveloperOutputs money) allocation
  return allocation.outputs ++ [⟨allocation.reward, job.poolAddressDestination⟩]

end CoinbaseJob

end routines

end Miningcore.Bitcoin
