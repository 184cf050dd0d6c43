import Miningcore.Blockchain.Bitcoin.CoinbaseOutputs
import Miningcore.Foundation.ValueSplit

/-!
# The coinbase keeps its value

Every routine adds the payments of its section. All of them together split the
value of the coinbase, whatever sections the coin and the template have.
-/

namespace Miningcore.Bitcoin

open Foundation

/-- Money is an integer of 64 bits with checked conversions and subtraction. -/
structure MoneyLibrary.IsChecked {Money : Type} (money : MoneyLibrary Money) : Prop where
  satoshi_ofInteger {n : Int} {value : Money} :
    money.ofInteger n = some value → (money.satoshi value).toInt = n
  isSome_ofInteger {n : Int} : -2 ^ 63 ≤ n → n < 2 ^ 63 → (money.ofInteger n).isSome
  satoshi_subtract {left right difference : Money} :
    money.subtract left right = some difference →
      (money.satoshi difference).toInt =
        (money.satoshi left).toInt - (money.satoshi right).toInt
  isSome_subtract {left right : Money} :
    -2 ^ 63 ≤ (money.satoshi left).toInt - (money.satoshi right).toInt →
      (money.satoshi left).toInt - (money.satoshi right).toInt < 2 ^ 63 →
        (money.subtract left right).isSome

/-! ## The payments of a template -/

abbrev CoinbasePayment := Payment Int Script

/-- One payment, unless its script or its amount is missing. -/
def onePayment (deducted : Bool) (scriptPubKey : Option Script) (amount : Option Int) :
    Option (List CoinbasePayment) :=
  match scriptPubKey, amount with
  | some recipient, some amount => some [{ amount, recipient, deducted }]
  | _, _ => none

/-- The payments of the entries that have a recipient. -/
def rewardPayments {α : Type} (deducted : Bool) (hasRecipient : α → Bool)
    (scriptPubKey : α → Option Script) (amount : α → Int64) :
    List (Option α) → Option (List CoinbasePayment)
  | [] => some []
  | none :: _ => none
  | some entry :: rest =>
      let payments := rewardPayments deducted hasRecipient scriptPubKey amount rest
      if hasRecipient entry then
        (onePayment deducted (scriptPubKey entry) (some (amount entry).toInt)).bind fun payment =>
          payments.map (payment ++ ·)
      else payments

/-- The payments of two sections, if both can be read. -/
def alsoPay (payments payments' : Option (List CoinbasePayment)) : Option (List CoinbasePayment) :=
  payments.bind fun payments => payments'.map (payments ++ ·)

namespace CoinbaseJob

variable (job : CoinbaseJob)

def payeeRewards (deducted : Bool) (section? : Option (JToken TemplateReward)) :
    Option (List CoinbasePayment) :=
  match section? with
  | none => some []
  | some token => token.entries.bind (rewardPayments deducted (fun entry => entry.payee ≠ "")
      (fun entry => job.addressToDestination entry.payee) TemplateReward.amount)

def scriptRewards (deducted : Bool) (section? : Option (JToken TemplateReward)) :
    Option (List CoinbasePayment) :=
  match section? with
  | none => some []
  | some token => token.entries.bind (rewardPayments deducted (fun entry => entry.script ≠ [])
      (fun entry => some (hexToByteArray entry.script)) TemplateReward.amount)

def payeePayment : Option (List CoinbasePayment) :=
  match job.blockTemplate.extra.payee with
  | some { payee, payeeAmount := some amount } =>
      if 0 < amount then onePayment true (job.addressToDestination payee) (some amount.toInt)
      else some []
  | _ => some []

def masternodePayments : Option (List CoinbasePayment) :=
  job.masterNodeParameters.bind fun parameters =>
    alsoPay (job.payeeRewards true parameters.masternode)
      (alsoPay
        (rewardPayments true (fun _ => true)
          (fun superBlock : SuperBlock => job.addressToDestination superBlock.payee)
          SuperBlock.amount (parameters.superBlocks.map some))
        (if !job.coin.hasPayee && parameters.payee ≠ "" then
          onePayment true (job.addressToDestination parameters.payee)
            (parameters.payeeAmount.map Int64.toInt)
        else some []))

def minerFundPayment : Option (List CoinbasePayment) :=
  job.blockTemplate.extra.minerFund.bind fun parameters =>
    if parameters.addresses.headD "" ≠ "" then
      onePayment true (job.addressToDestination (parameters.addresses.headD ""))
        (some parameters.minimumValue.toNat)
    else some []

def communityAddressPayment : Option (List CoinbasePayment) :=
  if 0 < job.blockTemplate.communityAutonomousValue then
    onePayment false (job.addressToDestination job.blockTemplate.communityAutonomousAddress)
      (some job.blockTemplate.communityAutonomousValue.toInt)
  else some []

def coinbaseDevPayment : Option (List CoinbasePayment) :=
  job.blockTemplate.extra.coinbaseDevReward.bind fun
    | none => some []
    | some token => token.entry.bind (rewardPayments false (fun entry => entry.scriptPubkey ≠ [])
        (fun entry => some (hexToByteArray entry.scriptPubkey)) CoinbaseDevReward.value)

def coinbaseStakingPayment : Option (List CoinbasePayment) :=
  job.blockTemplate.extra.coinbaseStakingReward.bind fun parameters =>
    if parameters.payoutScript ≠ [] then
      onePayment true (some (hexToByteArray parameters.payoutScript))
        (some parameters.minimumValue.toNat)
    else some []

/-- The payments of a section the coin may have. -/
def paymentsIf (has : Bool) (payments : Option (List CoinbasePayment)) :
    Option (List CoinbasePayment) :=
  if has then payments else some []

/-- What the template asks the coinbase to pay: the address of the community, the developer reward
of the coinbase and data mining on top of the value, all else from it. -/
def payments : Option (List CoinbasePayment) :=
  let extra := job.blockTemplate.extra
  [paymentsIf job.coin.hasPayee job.payeePayment,
    paymentsIf job.coin.hasMasterNodes job.masternodePayments,
    paymentsIf job.coin.hasFounderFee (extra.founder.bind (job.payeeRewards true)),
    paymentsIf job.coin.hasFortuneReward (extra.fortune.bind (job.payeeRewards true)),
    paymentsIf job.coin.hasMinerFund job.minerFundPayment,
    paymentsIf job.coin.hasCommunityAddress job.communityAddressPayment,
    paymentsIf job.coin.hasCoinbaseDevReward job.coinbaseDevPayment,
    paymentsIf job.coin.hasCoinbaseStakingReward job.coinbaseStakingPayment,
    paymentsIf job.coin.hasCommunity (extra.community.bind (scriptRewards true)),
    paymentsIf job.coin.hasDataMining (extra.dataMining.bind (scriptRewards false)),
    paymentsIf job.coin.hasDeveloper (extra.developer.bind (scriptRewards true))].foldr
      alsoPay (some [])

end CoinbaseJob

/-! ## The routines add the payments -/

section routines

variable {Money : Type} (money : MoneyLibrary Money)

/-- One output after the other. -/
def addPayments : List CoinbasePayment → Allocation Money → Option (Allocation Money)
  | [], allocation => some allocation
  | payment :: payments, allocation =>
      (addOutput money payment.deducted (some payment.recipient)
        (money.ofInteger payment.amount) allocation).bind (addPayments payments)

/-- The routine that adds the payments of a section. -/
def Adds (routine : Allocation Money → Option (Allocation Money))
    (payments : Option (List CoinbasePayment)) : Prop :=
  ∀ allocation, routine allocation =
    payments.bind fun payments => addPayments money payments allocation

variable {money}

theorem addPayments_append (payments payments' : List CoinbasePayment)
    (allocation : Allocation Money) :
    addPayments money (payments ++ payments') allocation =
      (addPayments money payments allocation).bind (addPayments money payments') := by
  induction payments generalizing allocation with
  | nil => rfl
  | cons payment payments ih =>
      rw [List.cons_append, addPayments, addPayments, Option.bind_assoc]
      apply Option.bind_congr
      intro next hnext
      exact ih next

theorem adds_nothing : Adds money some (some []) := fun _ => rfl

/-- One routine after another. -/
theorem Adds.andThen {routine routine' : Allocation Money → Option (Allocation Money)}
    {payments payments' : Option (List CoinbasePayment)} (h : Adds money routine payments)
    (h' : Adds money routine' payments') :
    Adds money (fun allocation => (routine allocation).bind routine')
      (alsoPay payments payments') := by
  intro allocation
  have hrest : ∀ next, routine' next =
      payments'.bind fun payments => addPayments money payments next := h'
  change (routine allocation).bind routine' = _
  rw [h allocation]
  cases payments with
  | none => rfl
  | some payments =>
      cases payments' with
      | none =>
          rw [funext hrest]
          exact Option.bind_fun_none _
      | some payments' =>
          rw [funext hrest]
          exact (addPayments_append payments payments' allocation).symm

theorem Adds.createIf (has : Bool) {routine : Allocation Money → Option (Allocation Money)}
    {payments : Option (List CoinbasePayment)} (h : Adds money routine payments) :
    Adds money (CoinbaseJob.createIf has routine) (CoinbaseJob.paymentsIf has payments) := by
  cases has
  · exact adds_nothing
  · exact h

theorem adds_addOutput (deduct : Bool) (scriptPubKey : Option Script) (amount : Option Int) :
    Adds money (addOutput money deduct scriptPubKey (amount.bind money.ofInteger))
      (onePayment deduct scriptPubKey amount) := by
  intro allocation
  cases scriptPubKey with
  | none => rfl
  | some scriptPubKey =>
      cases amount with
      | none => rfl
      | some amount =>
          exact (Option.bind_fun_some _).symm

theorem adds_addRewards {α : Type} (deduct : Bool) (hasRecipient : α → Bool)
    (scriptPubKey : α → Option Script) (amount : α → Int64) (entries : List (Option α)) :
    Adds money (addRewards money deduct hasRecipient scriptPubKey amount entries)
      (rewardPayments deduct hasRecipient scriptPubKey amount entries) := by
  induction entries with
  | nil => exact adds_nothing
  | cons entry rest ih =>
      cases entry with
      | none => exact fun _ => rfl
      | some entry =>
          by_cases hrecipient : hasRecipient entry = true
          · intro allocation
            have hfirst := @adds_addOutput _ money deduct (scriptPubKey entry)
              (some (amount entry).toInt)
            rw [addRewards, if_pos hrecipient, rewardPayments, if_pos hrecipient]
            exact hfirst.andThen ih allocation
          · intro allocation
            rw [addRewards, if_neg hrecipient, rewardPayments, if_neg hrecipient]
            exact ih allocation

variable (job : CoinbaseJob)

theorem adds_addPayeeRewards (deduct : Bool) (section? : Option (JToken TemplateReward)) :
    Adds money (addPayeeRewards money job deduct section?) (job.payeeRewards deduct section?) := by
  cases section? with
  | none => exact adds_nothing
  | some token =>
      intro allocation
      rw [addPayeeRewards, CoinbaseJob.payeeRewards, Option.bind_assoc]
      apply Option.bind_congr
      intro entries _
      exact adds_addRewards deduct _ _ _ entries allocation

theorem adds_addScriptRewards (deduct : Bool) (section? : Option (JToken TemplateReward)) :
    Adds money (addScriptRewards money deduct section?)
      (CoinbaseJob.scriptRewards deduct section?) := by
  cases section? with
  | none => exact adds_nothing
  | some token =>
      intro allocation
      rw [addScriptRewards, CoinbaseJob.scriptRewards, Option.bind_assoc]
      apply Option.bind_congr
      intro entries _
      exact adds_addRewards deduct _ _ _ entries allocation

/-- A section whose parameters may be missing. -/
theorem adds_bind {α : Type} (parameters : Option α)
    {routine : α → Allocation Money → Option (Allocation Money)}
    {payments : α → Option (List CoinbasePayment)}
    (h : ∀ value, Adds money (routine value) (payments value)) :
    Adds money (fun allocation => parameters.bind fun value => routine value allocation)
      (parameters.bind payments) := by
  cases parameters with
  | none => exact fun _ => rfl
  | some value => exact h value

theorem Adds.ite {c : Prop} [Decidable c]
    {routine routine' : Allocation Money → Option (Allocation Money)}
    {payments payments' : Option (List CoinbasePayment)} (h : Adds money routine payments)
    (h' : Adds money routine' payments') :
    Adds money (fun allocation => if c then routine allocation else routine' allocation)
      (if c then payments else payments') := by
  by_cases hc : c
  · simpa only [if_pos hc] using h
  · simpa only [if_neg hc] using h'

theorem adds_createPayeeOutput : Adds money (job.createPayeeOutput money) job.payeePayment := by
  intro allocation
  rw [CoinbaseJob.createPayeeOutput, CoinbaseJob.payeePayment]
  obtain _ | ⟨payee, _ | amount⟩ := job.blockTemplate.extra.payee
  · rfl
  · rfl
  · have hpayee := @adds_addOutput _ money true (job.addressToDestination payee)
      (some amount.toInt)
    exact (hpayee.ite adds_nothing) allocation

theorem adds_createMasternodeOutputs :
    Adds money (job.createMasternodeOutputs money) job.masternodePayments := by
  apply adds_bind
  intro parameters
  have hpayee : Adds money
      (fun allocation => if !job.coin.hasPayee && parameters.payee ≠ "" then
        addOutput money true (job.addressToDestination parameters.payee)
          (parameters.payeeAmount.bind fun amount => money.ofInteger amount.toInt) allocation
        else some allocation)
      (if !job.coin.hasPayee && parameters.payee ≠ "" then
        onePayment true (job.addressToDestination parameters.payee)
          (parameters.payeeAmount.map Int64.toInt)
        else some []) := by
    apply Adds.ite _ adds_nothing
    have hamount : (parameters.payeeAmount.bind fun amount => money.ofInteger amount.toInt) =
        (parameters.payeeAmount.map Int64.toInt).bind money.ofInteger :=
      Option.bind_map.symm
    rw [hamount]
    exact adds_addOutput true _ _
  have hsuperBlocks := (@adds_addRewards _ money _ true (fun _ => true)
    (fun superBlock : SuperBlock => job.addressToDestination superBlock.payee) SuperBlock.amount
    (parameters.superBlocks.map some)).andThen hpayee
  exact (adds_addPayeeRewards job true parameters.masternode).andThen hsuperBlocks

theorem adds_createMinerFundOutputs :
    Adds money (job.createMinerFundOutputs money) job.minerFundPayment := by
  apply adds_bind
  intro parameters
  exact (adds_addOutput true _ (some _)).ite adds_nothing

theorem adds_createCommunityAddressOutputs :
    Adds money (job.createCommunityAddressOutputs money) job.communityAddressPayment :=
  (adds_addOutput false _ (some _)).ite adds_nothing

theorem adds_createCoinbaseDevRewardOutputs :
    Adds money (job.createCoinbaseDevRewardOutputs money) job.coinbaseDevPayment := by
  apply adds_bind
  intro section?
  cases section? with
  | none => exact adds_nothing
  | some token =>
      apply adds_bind
      intro entries
      exact adds_addRewards false _ _ _ entries

theorem adds_createCoinbaseStakingRewardOutputs :
    Adds money (job.createCoinbaseStakingRewardOutputs money) job.coinbaseStakingPayment := by
  apply adds_bind
  intro parameters
  exact (adds_addOutput true _ (some _)).ite adds_nothing

/-- The outputs are those of the payments, and the pool gets the reward that is left. -/
theorem createOutputTransaction_eq :
    job.createOutputTransaction money =
      (money.ofInteger job.blockTemplate.coinbaseValue.toInt).bind fun reward =>
        job.payments.bind fun payments =>
          (addPayments money payments { reward }).map fun allocation =>
            allocation.outputs ++ [⟨allocation.reward, job.poolAddressDestination⟩] := by
  have hpayees : ∀ section? : Option (Option (JToken TemplateReward)),
      Adds money (fun allocation => section?.bind fun token =>
        addPayeeRewards money job true token allocation)
        (section?.bind (job.payeeRewards true)) :=
    fun section? => adds_bind section? (adds_addPayeeRewards job true)
  have hscripts : ∀ (deduct : Bool) (section? : Option (Option (JToken TemplateReward))),
      Adds money (fun allocation => section?.bind fun token =>
        addScriptRewards money deduct token allocation)
        (section?.bind (CoinbaseJob.scriptRewards deduct)) :=
    fun deduct section? => adds_bind section? (adds_addScriptRewards deduct)
  have hall :=
    ((adds_createPayeeOutput job).createIf job.coin.hasPayee).andThen <|
    ((adds_createMasternodeOutputs job).createIf job.coin.hasMasterNodes).andThen <|
    ((hpayees job.blockTemplate.extra.founder).createIf job.coin.hasFounderFee).andThen <|
    ((hpayees job.blockTemplate.extra.fortune).createIf job.coin.hasFortuneReward).andThen <|
    ((adds_createMinerFundOutputs job).createIf job.coin.hasMinerFund).andThen <|
    ((adds_createCommunityAddressOutputs job).createIf job.coin.hasCommunityAddress).andThen <|
    ((adds_createCoinbaseDevRewardOutputs job).createIf job.coin.hasCoinbaseDevReward).andThen <|
    ((adds_createCoinbaseStakingRewardOutputs job).createIf
      job.coin.hasCoinbaseStakingReward).andThen <|
    ((hscripts true job.blockTemplate.extra.community).createIf job.coin.hasCommunity).andThen <|
    ((hscripts false job.blockTemplate.extra.dataMining).createIf job.coin.hasDataMining).andThen <|
    ((hscripts true job.blockTemplate.extra.developer).createIf job.coin.hasDeveloper).andThen
      (@adds_nothing _ money)
  apply Option.bind_congr
  intro reward _
  have hpayments := congrArg (Option.map fun allocation : Allocation Money =>
    allocation.outputs ++ [⟨allocation.reward, job.poolAddressDestination⟩]) (hall { reward })
  simp only [Option.map_bind, Function.comp_def, Option.map_some] at hpayments
  exact hpayments

/-- The last output is the pool's. -/
theorem getLast?_createOutputTransaction {outputs : List (TxOut Money)}
    (h : job.createOutputTransaction money = some outputs) :
    outputs.getLast?.map TxOut.scriptPubKey = some job.poolAddressDestination := by
  rw [createOutputTransaction_eq] at h
  obtain ⟨reward, _, h⟩ := Option.bind_eq_some_iff.mp h
  obtain ⟨payments, _, h⟩ := Option.bind_eq_some_iff.mp h
  obtain ⟨final, _, rfl⟩ := Option.map_eq_some_iff.mp h
  rw [List.getLast?_concat]
  rfl

theorem poolAddressDestination_init {coin : BitcoinTemplate}
    {addressToDestination : String → Option Script} {blockTemplate : BlockTemplate}
    {destination : Script} {job : CoinbaseJob}
    (h : CoinbaseJob.init coin addressToDestination blockTemplate destination = some job) :
    job.poolAddressDestination = destination := by
  rw [CoinbaseJob.init] at h
  split at h
  · obtain ⟨parameters, _, rfl⟩ := Option.map_eq_some_iff.mp h
    rfl
  · obtain rfl := Option.some.inj h
    rfl

end routines

/-! ## The value of the coinbase -/

section conservation

variable {Money : Type} {money : MoneyLibrary Money}

/-- The satoshis of an output and who gets them. -/
def TxOut.paid (money : MoneyLibrary Money) (output : TxOut Money) : Int × Script :=
  ((money.satoshi output.value).toInt, output.scriptPubKey)

theorem reward_addOutput (hmoney : money.IsChecked) {deduct : Bool} {recipient : Script}
    {amount : Int} {allocation next : Allocation Money}
    (h : addOutput money deduct (some recipient) (money.ofInteger amount) allocation =
      some next) :
    next.outputs.map (TxOut.paid money) =
        allocation.outputs.map (TxOut.paid money) ++ [(amount, recipient)] ∧
      (money.satoshi next.reward).toInt =
        (money.satoshi allocation.reward).toInt - if deduct then amount else 0 := by
  rw [addOutput, Option.bind_some] at h
  obtain ⟨value, hvalue, h⟩ := Option.bind_eq_some_iff.mp h
  obtain ⟨reward, hreward, rfl⟩ := Option.map_eq_some_iff.mp h
  have hsatoshi := hmoney.satoshi_ofInteger hvalue
  refine ⟨by simp [TxOut.paid, hsatoshi], ?_⟩
  cases deduct with
  | false =>
      obtain rfl := Option.some.inj hreward
      exact (Int.sub_zero _).symm
  | true =>
      have hdifference := hmoney.satoshi_subtract hreward
      rw [hsatoshi] at hdifference
      exact hdifference

/-- The outputs are the payments, and what they deduct is gone from the reward. -/
theorem outputs_addPayments (hmoney : money.IsChecked) {payments : List CoinbasePayment}
    {allocation final : Allocation Money}
    (h : addPayments money payments allocation = some final) :
    final.outputs.map (TxOut.paid money) = allocation.outputs.map (TxOut.paid money) ++
        payments.map (fun payment => (payment.amount, payment.recipient)) ∧
      (money.satoshi final.reward).toInt =
        (money.satoshi allocation.reward).toInt - deductedTotal payments := by
  induction payments generalizing allocation with
  | nil =>
      obtain rfl := Option.some.inj h
      simp
  | cons payment payments ih =>
      obtain ⟨next, hnext, hfinal⟩ := Option.bind_eq_some_iff.mp h
      obtain ⟨houtputs, hreward⟩ := reward_addOutput hmoney hnext
      obtain ⟨houtputs', hreward'⟩ := ih hfinal
      constructor
      · rw [houtputs', houtputs, List.map_cons, List.append_assoc]
        rfl
      · rw [hreward', hreward, deductedTotal_cons]
        omega

/-- The coinbase splits its value among the payments of the template and the pool. -/
theorem paid_createOutputTransaction (hmoney : money.IsChecked) {job : CoinbaseJob}
    {outputs : List (TxOut Money)} (h : job.createOutputTransaction money = some outputs) :
    ∃ payments, job.payments = some payments ∧
      outputs.map (TxOut.paid money) =
        splitValue job.blockTemplate.coinbaseValue.toInt payments job.poolAddressDestination := by
  rw [createOutputTransaction_eq] at h
  obtain ⟨reward, hreward, h⟩ := Option.bind_eq_some_iff.mp h
  obtain ⟨payments, hpayments, h⟩ := Option.bind_eq_some_iff.mp h
  obtain ⟨final, hfinal, rfl⟩ := Option.map_eq_some_iff.mp h
  obtain ⟨houtputs, hrest⟩ := outputs_addPayments hmoney hfinal
  refine ⟨payments, hpayments, ?_⟩
  rw [hmoney.satoshi_ofInteger hreward] at hrest
  rw [List.map_append, houtputs, splitValue, ← hrest]
  rfl

/-! ### Covered payments are made -/

/-- An amount on top of the value is a `long`. -/
def InRange (payments? : Option (List CoinbasePayment)) : Prop :=
  ∀ payments, payments? = some payments →
    ∀ payment ∈ payments, payment.deducted = false → payment.amount < 2 ^ 63

theorem inRange_nothing : InRange (some []) := by
  intro payments h payment hpayment
  obtain rfl := Option.some.inj h
  cases hpayment

theorem inRange_onePayment {deducted : Bool} {scriptPubKey : Option Script} {amount : Option Int}
    (h : ∀ n, amount = some n → deducted = false → n < 2 ^ 63) :
    InRange (onePayment deducted scriptPubKey amount) := by
  intro payments hpayments payment hpayment
  cases scriptPubKey with
  | none => cases hpayments
  | some scriptPubKey =>
      cases amount with
      | none => cases hpayments
      | some n =>
          obtain rfl := Option.some.inj hpayments
          obtain rfl := List.mem_singleton.mp hpayment
          exact h n rfl

theorem InRange.alsoPay {payments payments' : Option (List CoinbasePayment)}
    (h : InRange payments) (h' : InRange payments') : InRange (alsoPay payments payments') := by
  intro all hall payment hpayment
  obtain ⟨first, hfirst, hall⟩ := Option.bind_eq_some_iff.mp hall
  obtain ⟨rest, hrest, rfl⟩ := Option.map_eq_some_iff.mp hall
  obtain hpayment | hpayment := List.mem_append.mp hpayment
  · exact h first hfirst payment hpayment
  · exact h' rest hrest payment hpayment

theorem InRange.bind {α : Type} {parameters : Option α}
    {payments : α → Option (List CoinbasePayment)} (h : ∀ value, InRange (payments value)) :
    InRange (parameters.bind payments) := by
  intro all hall
  obtain ⟨value, _, hvalue⟩ := Option.bind_eq_some_iff.mp hall
  exact h value all hvalue

theorem InRange.ite {c : Prop} [Decidable c] {payments : Option (List CoinbasePayment)}
    (h : c → InRange payments) : InRange (if c then payments else some []) := by
  by_cases hc : c
  · rw [if_pos hc]
    exact h hc
  · rw [if_neg hc]
    exact inRange_nothing

theorem inRange_rewardPayments {α : Type} (deducted : Bool) (hasRecipient : α → Bool)
    (scriptPubKey : α → Option Script) (amount : α → Int64) (entries : List (Option α)) :
    InRange (rewardPayments deducted hasRecipient scriptPubKey amount entries) := by
  induction entries with
  | nil => exact inRange_nothing
  | cons entry rest ih =>
      cases entry with
      | none =>
          intro payments h
          cases h
      | some entry =>
          rw [rewardPayments]
          split
          · apply InRange.alsoPay _ ih
            apply inRange_onePayment
            intro n hn _
            obtain rfl := Option.some.inj hn
            exact Int64.toInt_lt _
          · exact ih

variable {job : CoinbaseJob}

theorem inRange_payeeRewards (deducted : Bool) (section? : Option (JToken TemplateReward)) :
    InRange (job.payeeRewards deducted section?) := by
  cases section? with
  | none => exact inRange_nothing
  | some token => exact InRange.bind fun entries => inRange_rewardPayments _ _ _ _ entries

theorem inRange_scriptRewards (deducted : Bool) (section? : Option (JToken TemplateReward)) :
    InRange (CoinbaseJob.scriptRewards deducted section?) := by
  cases section? with
  | none => exact inRange_nothing
  | some token => exact InRange.bind fun entries => inRange_rewardPayments _ _ _ _ entries

theorem inRange_deducted {scriptPubKey : Option Script} {amount : Option Int} :
    InRange (onePayment true scriptPubKey amount) := by
  apply inRange_onePayment
  intro n _ hdeducted
  cases hdeducted

theorem inRange_payeePayment : InRange job.payeePayment := by
  rw [CoinbaseJob.payeePayment]
  obtain _ | ⟨payee, _ | amount⟩ := job.blockTemplate.extra.payee
  · exact inRange_nothing
  · exact inRange_nothing
  · exact InRange.ite fun _ => inRange_deducted

theorem inRange_masternodePayments : InRange job.masternodePayments := by
  apply InRange.bind
  intro parameters
  apply (inRange_payeeRewards true _).alsoPay
  apply (inRange_rewardPayments true _ _ _ _).alsoPay
  exact InRange.ite fun _ => inRange_deducted

theorem inRange_communityAddressPayment : InRange job.communityAddressPayment := by
  apply InRange.ite
  intro _
  apply inRange_onePayment
  intro n hn _
  obtain rfl := Option.some.inj hn
  exact Int64.toInt_lt _

theorem inRange_coinbaseDevPayment : InRange job.coinbaseDevPayment := by
  apply InRange.bind
  intro section?
  cases section? with
  | none => exact inRange_nothing
  | some token => exact InRange.bind fun entries => inRange_rewardPayments _ _ _ _ entries

theorem inRange_payments : InRange job.payments := by
  have hminer : InRange job.minerFundPayment :=
    InRange.bind fun _ => InRange.ite fun _ => inRange_deducted
  have hstaking : InRange job.coinbaseStakingPayment :=
    InRange.bind fun _ => InRange.ite fun _ => inRange_deducted
  have hpayees : ∀ section? : Option (Option (JToken TemplateReward)),
      InRange (section?.bind (job.payeeRewards true)) :=
    fun _ => InRange.bind (inRange_payeeRewards true)
  have hscripts : ∀ (deducted : Bool) (section? : Option (Option (JToken TemplateReward))),
      InRange (section?.bind (CoinbaseJob.scriptRewards deducted)) :=
    fun deducted _ => InRange.bind (inRange_scriptRewards deducted)
  exact (InRange.ite fun _ => inRange_payeePayment).alsoPay <|
    (InRange.ite fun _ => inRange_masternodePayments).alsoPay <|
    (InRange.ite fun _ => hpayees _).alsoPay <|
    (InRange.ite fun _ => hpayees _).alsoPay <|
    (InRange.ite fun _ => hminer).alsoPay <|
    (InRange.ite fun _ => inRange_communityAddressPayment).alsoPay <|
    (InRange.ite fun _ => inRange_coinbaseDevPayment).alsoPay <|
    (InRange.ite fun _ => hstaking).alsoPay <|
    (InRange.ite fun _ => hscripts true _).alsoPay <|
    (InRange.ite fun _ => hscripts false _).alsoPay <|
    (InRange.ite fun _ => hscripts true _).alsoPay inRange_nothing

theorem isSome_addOutput (hmoney : money.IsChecked) {deduct : Bool} {recipient : Script}
    {amount : Int} {allocation : Allocation Money} (hamount : 0 ≤ amount)
    (hlong : amount < 2 ^ 63)
    (hcovered : deduct = true → amount ≤ (money.satoshi allocation.reward).toInt) :
    (addOutput money deduct (some recipient) (money.ofInteger amount) allocation).isSome := by
  obtain ⟨value, hvalue⟩ :=
    Option.isSome_iff_exists.mp (hmoney.isSome_ofInteger (by omega) hlong)
  have hsatoshi := hmoney.satoshi_ofInteger hvalue
  have hreward := Int64.toInt_lt (money.satoshi allocation.reward)
  rw [hvalue]
  cases deduct with
  | false => rfl
  | true =>
      have hcovered := hcovered rfl
      have hsubtract : (money.subtract allocation.reward value).isSome :=
        hmoney.isSome_subtract (by omega) (by omega)
      rw [addOutput, Option.bind_some, Option.bind_some]
      simpa using hsubtract

theorem isSome_addPayments (hmoney : money.IsChecked) {payments : List CoinbasePayment}
    {allocation : Allocation Money} (hnonneg : ∀ payment ∈ payments, 0 ≤ payment.amount)
    (hlong : ∀ payment ∈ payments, payment.deducted = false → payment.amount < 2 ^ 63)
    (hcovered : deductedTotal payments ≤ (money.satoshi allocation.reward).toInt) :
    (addPayments money payments allocation).isSome := by
  induction payments generalizing allocation with
  | nil => rfl
  | cons payment payments ih =>
      obtain ⟨hamount, hrest⟩ := List.forall_mem_cons.mp hnonneg
      obtain ⟨hfirst, hlong⟩ := List.forall_mem_cons.mp hlong
      have hdeducted := deductedTotal_nonneg hrest
      have hreward := Int64.toInt_lt (money.satoshi allocation.reward)
      rw [deductedTotal_cons] at hcovered
      have hadd : (addOutput money payment.deducted (some payment.recipient)
          (money.ofInteger payment.amount) allocation).isSome := by
        apply isSome_addOutput hmoney hamount
        · cases hpayment : payment.deducted with
          | false => exact hfirst hpayment
          | true =>
              rw [hpayment, if_pos rfl] at hcovered
              omega
        · intro hpayment
          rw [hpayment, if_pos rfl] at hcovered
          omega
      obtain ⟨next, hnext⟩ := Option.isSome_iff_exists.mp hadd
      rw [addPayments, hnext, Option.bind_some]
      apply ih hrest hlong
      rw [(reward_addOutput hmoney hnext).2]
      omega

/-- A template whose payments are covered has its coinbase. -/
theorem isSome_createOutputTransaction (hmoney : money.IsChecked)
    {payments : List CoinbasePayment} (hpayments : job.payments = some payments)
    (hnonneg : ∀ payment ∈ payments, 0 ≤ payment.amount)
    (hcovered : deductedTotal payments ≤ job.blockTemplate.coinbaseValue.toInt) :
    (job.createOutputTransaction money).isSome := by
  obtain ⟨reward, hreward⟩ := Option.isSome_iff_exists.mp
    (hmoney.isSome_ofInteger (Int64.le_toInt _) (Int64.toInt_lt job.blockTemplate.coinbaseValue))
  have hadd : (addPayments money payments { reward }).isSome := by
    apply isSome_addPayments hmoney hnonneg (inRange_payments payments hpayments)
    rw [hmoney.satoshi_ofInteger hreward]
    exact hcovered
  rw [createOutputTransaction_eq, hreward, hpayments, Option.bind_some, Option.bind_some,
    Option.isSome_map]
  exact hadd

/-- All outputs together are the value of the coinbase and what is paid on top of it, the pool gets
the value without the deductions, and nothing is negative when the deductions are covered. -/
theorem createOutputTransaction_conserves (hmoney : money.IsChecked) (job : CoinbaseJob) :
    (∀ outputs, job.createOutputTransaction money = some outputs →
      ∃ payments, job.payments = some payments ∧
        ((outputs.map (TxOut.paid money)).map Prod.fst).sum =
          job.blockTemplate.coinbaseValue.toInt + additionalTotal payments ∧
        (outputs.map (TxOut.paid money)).getLast? =
          some (job.blockTemplate.coinbaseValue.toInt - deductedTotal payments,
            job.poolAddressDestination) ∧
        ((∀ payment ∈ payments, 0 ≤ payment.amount) →
          deductedTotal payments ≤ job.blockTemplate.coinbaseValue.toInt →
          ∀ output ∈ outputs, 0 ≤ (money.satoshi output.value).toInt)) ∧
    (∀ payments, job.payments = some payments →
      (∀ payment ∈ payments, 0 ≤ payment.amount) →
      deductedTotal payments ≤ job.blockTemplate.coinbaseValue.toInt →
      (job.createOutputTransaction money).isSome) := by
  refine ⟨fun outputs houtputs => ?_, fun payments hpayments =>
    isSome_createOutputTransaction hmoney hpayments⟩
  obtain ⟨payments, hpayments, hsplit⟩ := paid_createOutputTransaction hmoney houtputs
  refine ⟨payments, hpayments, ?_, ?_, ?_⟩
  · rw [hsplit]
    exact sum_splitValue _ _ _
  · rw [hsplit, splitValue]
    exact List.getLast?_concat
  · intro hnonneg hcovered output houtput
    have hmem := List.mem_map_of_mem (f := TxOut.paid money) houtput
    rw [hsplit] at hmem
    exact nonneg_of_mem_splitValue hcovered hnonneg hmem

end conservation

/-! ### A template with three sections -/

/-- An integer of 64 bits whose operations are checked. -/
def checkedInt64 (n : Int) : Option Int64 :=
  if -2 ^ 63 ≤ n ∧ n < 2 ^ 63 then some (Int64.ofInt n) else none

def checkedMoney : MoneyLibrary Int64 where
  ofInteger := checkedInt64
  subtract left right := checkedInt64 (left.toInt - right.toInt)
  satoshi := id

theorem checkedInt64_eq {n : Int} (hn : -2 ^ 63 ≤ n) (hn' : n < 2 ^ 63) :
    checkedInt64 n = some (Int64.ofInt n) := if_pos ⟨hn, hn'⟩

theorem toInt_checkedInt64 {n : Int} {value : Int64} (h : checkedInt64 n = some value) :
    value.toInt = n := by
  by_cases hn : -2 ^ 63 ≤ n ∧ n < 2 ^ 63
  · rw [checkedInt64_eq hn.1 hn.2] at h
    obtain rfl := Option.some.inj h
    exact Int64.toInt_ofInt_of_le hn.1 hn.2
  · rw [checkedInt64, if_neg hn] at h
    cases h

theorem checkedMoney_isChecked : checkedMoney.IsChecked where
  satoshi_ofInteger := toInt_checkedInt64
  isSome_ofInteger hn hn' := Option.isSome_iff_exists.mpr ⟨_, checkedInt64_eq hn hn'⟩
  satoshi_subtract := toInt_checkedInt64
  isSome_subtract hn hn' := Option.isSome_iff_exists.mpr ⟨_, checkedInt64_eq hn hn'⟩

def threeSections : CoinbaseJob where
  coin := { hasFounderFee := true, hasMinerFund := true, hasDataMining := true }
  blockTemplate :=
    { previousBlockhash := "00", height := 7, coinbaseValue := 5000
      extra :=
        { founder := some (some (.array (some [some { payee := "founder", amount := 1000 }])))
          minerFund := some { addresses := ["fund"], minimumValue := 400 }
          dataMining := some (some (.object (some (some
            { script := ['5', '1'], amount := 300 })))) } }
  poolAddressDestination := [0x76]
  addressToDestination address := some (address.toList.map Char.toUInt8)

/-- Two deductions and a payment on top. -/
def threePayments : List CoinbasePayment :=
  [⟨1000, "founder".toList.map Char.toUInt8, true⟩, ⟨400, "fund".toList.map Char.toUInt8, true⟩,
    ⟨300, [0x51], false⟩]

theorem payments_threeSections : threeSections.payments = some threePayments := by
  decide +kernel

theorem threeSections_conserves :
    ∃ outputs, threeSections.createOutputTransaction checkedMoney = some outputs ∧
      ((outputs.map (TxOut.paid checkedMoney)).map Prod.fst).sum = 5300 ∧
      (outputs.map (TxOut.paid checkedMoney)).getLast? = some (3600, [0x76]) ∧
      ∀ output ∈ outputs, 0 ≤ (checkedMoney.satoshi output.value).toInt := by
  have h := createOutputTransaction_conserves checkedMoney_isChecked threeSections
  have hnonneg : ∀ payment ∈ threePayments, 0 ≤ payment.amount := by decide +kernel
  have hcovered : deductedTotal threePayments ≤
      threeSections.blockTemplate.coinbaseValue.toInt := by decide +kernel
  obtain ⟨outputs, houtputs⟩ := Option.isSome_iff_exists.mp
    (h.2 threePayments payments_threeSections hnonneg hcovered)
  obtain ⟨payments, hpayments, hsum, hlast, houtput⟩ := h.1 outputs houtputs
  obtain rfl : threePayments = payments :=
    Option.some.inj (payments_threeSections.symm.trans hpayments)
  exact ⟨outputs, houtputs, hsum, hlast, houtput hnonneg hcovered⟩

end Miningcore.Bitcoin
