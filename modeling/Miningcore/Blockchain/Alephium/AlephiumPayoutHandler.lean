import Miningcore.Blockchain.Alephium.BlockClassification
import Miningcore.Blockchain.Alephium.JobStream
import Miningcore.Payments.Transfers
import Mathlib.Tactic.Linarith

/-!
# Alephium payouts

The addresses of a group are paid by one settlement, which spends all unlocked outputs of
the pool's address. Addresses are dropped where its gas would exceed the limit.

## Implementation notes

The amounts are decimals and exact here. The atto amounts of a settlement are whole numbers;
the source sends them as texts. The clock is read once for a group.
-/

namespace Miningcore

open Foundation

namespace Alephium

def defaultGasPrice : ℚ := 100000000000

def txBaseGas : ℤ := 1000

def minGasPerTx : ℤ := 20000

def maxGasPerTx : ℤ := 625000

def gasPerInput : ℤ := 2000

def gasPerOutput : ℤ := 4500

def p2pkUnlockGas : ℤ := 2060

structure AlephiumPaymentProcessingConfigExtra where
  walletName : String
  keepTransactionFees : Bool

structure OutputRef where
  hint : ℤ
  key : String
deriving DecidableEq

structure Utxo where
  ref : OutputRef
  lockTime : ℤ

/-- The unspent outputs of an address. -/
structure AddressUtxos where
  warning : Option String
  utxos : List Utxo

structure WalletAddress where
  address : String
  publicKey : String

structure Terminus where
  address : String
  attoAlphAmount : ℤ
deriving DecidableEq

structure BuildSettlement where
  fromPublicKey : String
  destinations : List Terminus
  utxos : List OutputRef
  gasAmount : ℤ
deriving DecidableEq

structure SettlementBuild where
  unsignedTx : Option String
  txId : Option String

/-- What the guarded calls of the node return, which is nothing where a call fails. -/
structure AlephiumClient where
  postTransactionsBuild : BuildSettlement → Option SettlementBuild
  nameSign : String → Option String → Option String
  postTransactionsSubmit : Option String → Option String → Option String

/-- A group's settlement, if one is built, the id of its transaction, if it is submitted, and the
balances that are persisted for it. -/
structure GroupOutcome where
  settlement : Option BuildSettlement := none
  txId : Option String := none
  persisted : List (Balance × Option String) := []

end Alephium

namespace AlephiumPayoutHandler

open Alephium

def convertNumberForApi (amount : ℚ) : ℤ := roundHalfEven amount

section gas

/-- The gas of a transaction, computed in `int`. -/
def txGas (inputs outputs : ℕ) : ℤ :=
  let inputGas := toInt32 (gasPerInput * inputs)
  let outputGas := toInt32 (gasPerOutput * outputs)
  toInt32 (toInt32 (toInt32 (toInt32 (inputGas + outputGas) + txBaseGas) + p2pkUnlockGas) +
    gasPerOutput)

/-- The last addresses are removed until no more than `count` are left. -/
def trimAddresses {α : Type} (count : ℕ) (group : List α) : List α :=
  if count < group.length then trimAddresses count group.dropLast else group
termination_by group.length
decreasing_by rw [List.length_dropLast]; omega

/-- The addresses that are paid and the gas amount, unless all addresses would be removed. -/
def fitGas {α : Type} (inputs : ℕ) (group : List α) : Option (List α × ℤ) :=
  let estimatedGasAmount := max minGasPerTx (txGas inputs group.length)
  if maxGasPerTx < estimatedGasAmount then
    let numberOfAddressesToRemove : ℤ :=
      ⌈((estimatedGasAmount - maxGasPerTx : ℤ) : ℚ) / (gasPerOutput : ℚ)⌉
    if (group.length : ℤ) ≤ numberOfAddressesToRemove then none
    else some (trimAddresses (group.length - numberOfAddressesToRemove).toNat group, maxGasPerTx)
  else some (group, estimatedGasAmount)

end gas

/-- The atto amount of a destination, one of `count`. -/
def attoAlphAmount (keepTransactionFees : Option Bool) (estimatedGasAmount : ℤ) (count : ℕ)
    (amount : ℚ) : ℤ :=
  convertNumberForApi
    (if keepTransactionFees = some false then amount * smallestUnit
    else if estimatedGasAmount * defaultGasPrice / count < amount * smallestUnit then
      amount * smallestUnit - estimatedGasAmount * defaultGasPrice / count
    else amount * smallestUnit)

def batchDestinations (keepTransactionFees : Option Bool) (estimatedGasAmount : ℤ)
    (group : List (String × ℚ)) : List Terminus :=
  group.map fun pair =>
    ⟨pair.1, attoAlphAmount keepTransactionFees estimatedGasAmount group.length pair.2⟩

def unlockedUtxos (now : ℤ) (response : AddressUtxos) : List OutputRef :=
  (response.utxos.filter fun utxo => utxo.lockTime ≤ now).map Utxo.ref

variable (client : AlephiumClient) (extra : AlephiumPaymentProcessingConfigExtra)
  (inputAddress : WalletAddress) (pool : PoolConfig) (now : ℤ)

/-- The settlement is built, signed and submitted; its transaction id, if it has one. -/
def settle (settlement : BuildSettlement) : Option String :=
  match client.postTransactionsBuild settlement with
  | none => none
  | some txBuild =>
      if isNullOrEmpty txBuild.txId then none
      else
        let signature := client.nameSign extra.walletName txBuild.txId
        if isNullOrEmpty signature then none
        else
          let txId := client.postTransactionsSubmit txBuild.unsignedTx signature
          if isNullOrEmpty txId then none else txId

/-- The addresses that are kept are paid with the gas amount, and their balances persisted if the
settlement gets a transaction id. -/
def payAddresses (inputUtxos : List OutputRef) (kept : List (String × ℚ))
    (estimatedGasAmount : ℤ) : GroupOutcome :=
  let settlement : BuildSettlement :=
    { fromPublicKey := inputAddress.publicKey
      destinations := batchDestinations (some extra.keepTransactionFees) estimatedGasAmount kept
      utxos := inputUtxos
      gasAmount := estimatedGasAmount }
  let txId := settle client extra settlement
  { settlement := some settlement
    txId := txId
    persisted := match txId with
      | none => []
      | some txId => kept.map fun pair => (⟨pool.id, pair.1, pair.2⟩, some txId) }

/-- The body of the loop over the groups. The request for the unspent outputs can throw: none of
the guards is around it. -/
def payGroup (group : List (String × ℚ)) (response : Except Exception AddressUtxos) :
    Except Exception GroupOutcome :=
  -- only groups containing addresses are processed
  if group.length = 0 then .ok {}
  else match response with
    | .error e => .error e
    | .ok inputAddressUtxos =>
        if isNullOrEmpty inputAddressUtxos.warning = false then .ok {}
        else
          let inputUtxos := unlockedUtxos now inputAddressUtxos
          match fitGas inputUtxos.length group with
          | none => .ok {}
          | some (kept, estimatedGasAmount) =>
              .ok (payAddresses client extra inputAddress pool inputUtxos kept estimatedGasAmount)

/-- The loop over the groups, with what it throws in the end. -/
def payGroups : List (List (String × ℚ) × Except Exception AddressUtxos) →
    List GroupOutcome × Option Exception
  | [] => ([], none)
  | (group, response) :: rest =>
      match payGroup client extra inputAddress pool now group response with
      | .error e => ([], some e)
      | .ok outcome =>
          let (outcomes, thrown) := payGroups rest
          (outcome :: outcomes, thrown)

/-- `PayoutAsync` behind the grouping of the addresses. Without the extra configuration the
request for the wallet's status throws. -/
def payout (extra : Option AlephiumPaymentProcessingConfigExtra)
    (groups : List (List (String × ℚ) × Except Exception AddressUtxos)) :
    List GroupOutcome × Option Exception :=
  match extra with
  | none => ([], some .nullReference)
  | some extra => payGroups client extra inputAddress pool now groups

/-! ## The gas limit -/

/-- The gas of a transaction with so many inputs and destinations, and with a change output. -/
def requiredGas (inputs outputs : ℕ) : ℤ :=
  gasPerInput * inputs + gasPerOutput * outputs + gasPerOutput + txBaseGas + p2pkUnlockGas

/-- A settlement has the gas it needs, within the limit, and a destination. The balances of its
destinations are persisted if it is submitted, and none otherwise. -/
structure SettlementFits (group : List (String × ℚ)) (settlement : BuildSettlement)
    (txId : Option String) (persisted : List (Balance × Option String)) : Prop where
  requiredGas_le :
    requiredGas settlement.utxos.length settlement.destinations.length ≤ settlement.gasAmount
  gasAmount_le : settlement.gasAmount ≤ maxGasPerTx
  destinations_ne_nil : settlement.destinations ≠ []
  addresses_persisted : txId ≠ none →
    persisted.map (fun entry => entry.1.address) = settlement.destinations.map Terminus.address
  nothing_persisted : txId = none → persisted = []
  amounts_persisted : (persisted.map fun entry => (entry.1.address, entry.1.amount)) <+: group

/-- What is built for the group fits, and nothing is persisted without it. -/
def RespectsGasLimit (group : List (String × ℚ)) (outcome : GroupOutcome) : Prop :=
  match outcome.settlement with
  | none => outcome.persisted = []
  | some settlement => SettlementFits group settlement outcome.txId outcome.persisted

/-- The gas fits in an `int`, or what it overflows to is so large that nothing is paid. -/
def GasIsExact (inputs outputs : ℕ) : Prop :=
  requiredGas inputs outputs < 2 ^ 31 ∨
    maxGasPerTx + gasPerOutput * (outputs - 1) < toInt32 (requiredGas inputs outputs)

section arithmetic

variable (inputs outputs : ℕ)

theorem txGas_eq : txGas inputs outputs = toInt32 (requiredGas inputs outputs) := by
  simp only [txGas, requiredGas, toInt32, Int.bmod_add_bmod, Int.add_bmod_bmod]
  congr 1

theorem toInt32_of_lt {n : ℤ} (hnonneg : 0 ≤ n) (hlt : n < 2 ^ 31) : toInt32 n = n := by
  rw [toInt32, Int.bmod_eq_of_le] <;> omega

/-- A number that does not fit loses at least one multiple of the word. -/
theorem toInt32_le_sub {n : ℤ} (h : 2 ^ 31 ≤ n) : toInt32 n ≤ n - 2 ^ 32 := by
  rw [toInt32, Int.bmod_def]
  split <;> omega

theorem requiredGas_pos : 0 < requiredGas inputs outputs := by
  simp only [requiredGas, gasPerInput, gasPerOutput, txBaseGas, p2pkUnlockGas]
  omega

end arithmetic

section trimming

variable {α : Type}

theorem trimAddresses_eq_take (count : ℕ) (group : List α) :
    trimAddresses count group = group.take count := by
  fun_induction trimAddresses count group with
  | case1 group hlt ih =>
      rw [ih, List.dropLast_eq_take, List.take_take, min_eq_left (by omega)]
  | case2 group hle => rw [List.take_of_length_le (by omega)]

theorem minGasPerTx_le : minGasPerTx ≤ maxGasPerTx := by
  simp [minGasPerTx, maxGasPerTx]

theorem ceil_intCast_div_eq_iff {a b r : ℤ} (hb : 0 < b) :
    ⌈(a : ℚ) / (b : ℚ)⌉ = r ↔ b * (r - 1) < a ∧ a ≤ b * r := by
  have hcast : (0 : ℚ) < b := by exact_mod_cast hb
  rw [Int.ceil_eq_iff, lt_div_iff₀ hcast, div_le_iff₀ hcast, mul_comm b, mul_comm b]
  exact_mod_cast Iff.rfl

/-- All addresses are paid where the gas is within the limit, and otherwise as many of the first
ones as the limit leaves. -/
theorem fitGas_cases (inputs : ℕ) (group : List α) :
    (txGas inputs group.length ≤ maxGasPerTx ∧
        fitGas inputs group = some (group, max minGasPerTx (txGas inputs group.length))) ∨
      ∃ removed : ℕ, maxGasPerTx < txGas inputs group.length ∧
        maxGasPerTx + gasPerOutput * (removed - 1) < txGas inputs group.length ∧
        txGas inputs group.length ≤ maxGasPerTx + gasPerOutput * removed ∧
        fitGas inputs group =
          if group.length ≤ removed then none
          else some (group.take (group.length - removed), maxGasPerTx) := by
  by_cases hlimit : txGas inputs group.length ≤ maxGasPerTx
  · left
    have hestimated : max minGasPerTx (txGas inputs group.length) ≤ maxGasPerTx :=
      max_le minGasPerTx_le hlimit
    refine ⟨hlimit, ?_⟩
    rw [fitGas]
    simp only [if_neg hestimated.not_gt]
  · right
    rw [not_le] at hlimit
    have hestimated : max minGasPerTx (txGas inputs group.length) = txGas inputs group.length := by
      apply max_eq_right
      exact minGasPerTx_le.trans hlimit.le
    obtain ⟨hbelow, habove⟩ :=
      (ceil_intCast_div_eq_iff (a := txGas inputs group.length - maxGasPerTx)
        (b := gasPerOutput) (by decide)).mp rfl
    generalize hremoved : ⌈((txGas inputs group.length - maxGasPerTx : ℤ) : ℚ) /
      (gasPerOutput : ℚ)⌉ = removed at hbelow habove
    have hnonneg : 0 ≤ removed := by
      rw [gasPerOutput] at habove
      omega
    lift removed to ℕ using hnonneg
    refine ⟨removed, hlimit, by omega, by omega, ?_⟩
    rw [fitGas, hestimated, if_pos hlimit]
    simp only [hremoved, Nat.cast_le]
    split
    · rfl
    · rw [trimAddresses_eq_take, Int.toNat_sub']
      rfl

/-- What fits is the whole group, or the group without the addresses behind the limit. -/
theorem of_fitGas_eq_some {inputs : ℕ} {group kept : List α} {gas : ℤ}
    (h : fitGas inputs group = some (kept, gas)) :
    (txGas inputs group.length ≤ maxGasPerTx ∧ kept = group ∧
        gas = max minGasPerTx (txGas inputs group.length)) ∨
      ∃ removed : ℕ, removed < group.length ∧
        maxGasPerTx + gasPerOutput * (removed - 1) < txGas inputs group.length ∧
        txGas inputs group.length ≤ maxGasPerTx + gasPerOutput * removed ∧
        kept = group.take (group.length - removed) ∧ kept.length = group.length - removed ∧
        gas = maxGasPerTx := by
  obtain ⟨hlimit, heq⟩ | ⟨removed, -, hbelow, habove, heq⟩ := fitGas_cases inputs group
  · rw [heq] at h
    cases h
    exact Or.inl ⟨hlimit, rfl, rfl⟩
  · rw [heq] at h
    split at h
    · cases h
    · rename_i hremoved
      cases h
      refine Or.inr ⟨removed, not_le.mp hremoved, hbelow, habove, rfl, ?_, rfl⟩
      rw [List.length_take, min_eq_left (Nat.sub_le _ _)]

theorem fitGas_isPrefix {inputs : ℕ} {group kept : List α} {gas : ℤ}
    (h : fitGas inputs group = some (kept, gas)) : kept <+: group := by
  obtain ⟨-, rfl, -⟩ | ⟨removed, -, -, -, rfl, -⟩ := of_fitGas_eq_some h
  · exact List.prefix_rfl
  · exact List.take_prefix _ _

end trimming

variable (client : AlephiumClient) (extra : AlephiumPaymentProcessingConfigExtra)
  (inputAddress : WalletAddress) (pool : PoolConfig) (now : ℤ)

/-- Whatever the node answers, a settlement fits if its gas does and it pays an address. -/
theorem respectsGasLimit_payAddresses_iff {group kept : List (String × ℚ)} (hkept : kept <+: group)
    (inputUtxos : List OutputRef) (gas : ℤ) :
    RespectsGasLimit group (payAddresses client extra inputAddress pool inputUtxos kept gas) ↔
      requiredGas inputUtxos.length kept.length ≤ gas ∧ gas ≤ maxGasPerTx ∧ kept ≠ [] := by
  have hlength : (batchDestinations (some extra.keepTransactionFees) gas kept).length =
      kept.length := List.length_map _
  constructor
  · rintro ⟨hgas, hlimit, hdestinations, -, -, -⟩
    refine ⟨hlength ▸ hgas, hlimit, ?_⟩
    rintro rfl
    exact hdestinations rfl
  · rintro ⟨hgas, hlimit, hne⟩
    refine ⟨hlength.symm ▸ hgas, hlimit, fun hnil => hne (List.map_eq_nil_iff.mp hnil), ?_, ?_, ?_⟩
    all_goals dsimp only [payAddresses]
    · intro hsome
      split
      · rename_i hnone
        exact absurd hnone hsome
      · simp [batchDestinations]
    · intro hnone
      rw [hnone]
    · split
      · exact List.nil_prefix
      · simpa [Function.comp_def] using hkept

section limit

variable {α : Type} {inputs : ℕ} {group kept : List α} {gas : ℤ}

/-- Without an overflow what is paid is within the limit. -/
theorem requiredGas_le_of_fitGas (hlt : requiredGas inputs group.length < 2 ^ 31)
    (hgroup : group ≠ []) (h : fitGas inputs group = some (kept, gas)) :
    requiredGas inputs kept.length ≤ gas ∧ gas ≤ maxGasPerTx ∧ kept ≠ [] := by
  have hexact : txGas inputs group.length = requiredGas inputs group.length := by
    rw [txGas_eq, toInt32_of_lt (requiredGas_pos inputs group.length).le hlt]
  obtain ⟨hlimit, rfl, hgas⟩ | ⟨removed, hremoved, -, habove, -, hlength, hgas⟩ :=
    of_fitGas_eq_some h
  · rw [hgas]
    exact ⟨hexact ▸ le_max_right _ _, max_le minGasPerTx_le hlimit, hgroup⟩
  · rw [hgas]
    refine ⟨?_, le_rfl, ?_⟩
    · rw [hexact] at habove
      rw [hlength]
      simp only [requiredGas, gasPerOutput] at habove ⊢
      push_cast [hremoved.le]
      linarith
    · exact List.ne_nil_of_length_pos (by omega)

/-- With an overflow what is paid needs more gas than it gets. -/
theorem lt_requiredGas_of_fitGas (hle : 2 ^ 31 ≤ requiredGas inputs group.length)
    (h : fitGas inputs group = some (kept, gas)) : gas < requiredGas inputs kept.length := by
  have hwrapped : txGas inputs group.length ≤ requiredGas inputs group.length - 2 ^ 32 := by
    rw [txGas_eq]
    exact toInt32_le_sub hle
  obtain ⟨hlimit, rfl, hgas⟩ | ⟨removed, hremoved, hbelow, -, -, hlength, hgas⟩ :=
    of_fitGas_eq_some h
  · rw [hgas]
    apply lt_of_le_of_lt (max_le minGasPerTx_le hlimit)
    exact lt_of_lt_of_le (by simp [maxGasPerTx]) hle
  · rw [hgas, hlength]
    simp only [requiredGas, gasPerOutput, maxGasPerTx] at hwrapped hbelow ⊢
    push_cast [hremoved.le]
    linarith

theorem fitGas_eq_none_iff (hgroup : group ≠ []) :
    fitGas inputs group = none ↔
      maxGasPerTx + gasPerOutput * (group.length - 1) < txGas inputs group.length := by
  have hpos : 0 < group.length := List.length_pos_of_ne_nil hgroup
  obtain ⟨hlimit, heq⟩ | ⟨removed, -, hbelow, habove, heq⟩ := fitGas_cases inputs group
  · rw [heq]
    apply iff_of_false (Option.some_ne_none _)
    simp only [gasPerOutput]
    omega
  · rw [heq]
    simp only [gasPerOutput] at hbelow habove ⊢
    split
    · exact iff_of_true rfl (by omega)
    · exact iff_of_false (Option.some_ne_none _) (by omega)

end limit

/-- A group is paid within the gas limit just if the computed gas is exact or keeps it from being
paid, or it is not paid for another reason. -/
theorem respectsGasLimit_iff (group : List (String × ℚ)) (inputAddressUtxos : AddressUtxos) :
    (∀ outcome, payGroup client extra inputAddress pool now group (.ok inputAddressUtxos) =
        .ok outcome → RespectsGasLimit group outcome) ↔
      group = [] ∨ isNullOrEmpty inputAddressUtxos.warning = false ∨
        GasIsExact (unlockedUtxos now inputAddressUtxos).length group.length := by
  rw [payGroup]
  by_cases hgroup : group = []
  · subst hgroup
    apply iff_of_true ?_ (Or.inl rfl)
    rintro outcome ⟨⟩
    rfl
  have hlength : group.length ≠ 0 := fun h => hgroup (List.length_eq_zero_iff.mp h)
  rw [if_neg hlength]
  dsimp only
  by_cases hwarning : isNullOrEmpty inputAddressUtxos.warning = false
  · rw [if_pos hwarning]
    apply iff_of_true ?_ (Or.inr (Or.inl hwarning))
    rintro outcome ⟨⟩
    rfl
  rw [if_neg hwarning, GasIsExact, ← txGas_eq, ← fitGas_eq_none_iff hgroup]
  cases hfit : fitGas (unlockedUtxos now inputAddressUtxos).length group with
  | none =>
      apply iff_of_true ?_ (Or.inr (Or.inr (Or.inr rfl)))
      rintro outcome ⟨⟩
      rfl
  | some result =>
      obtain ⟨kept, gas⟩ := result
      simp only [Except.ok.injEq, forall_eq']
      rw [respectsGasLimit_payAddresses_iff _ _ _ _ (fitGas_isPrefix hfit)]
      constructor
      · rintro ⟨hgas, -, -⟩
        right
        right
        left
        by_contra hge
        exact absurd hgas (lt_requiredGas_of_fitGas (not_lt.mp hge) hfit).not_ge
      · rintro (hnil | hfalse | hlt | hnone)
        · exact absurd hnil hgroup
        · exact absurd hfalse hwarning
        · exact requiredGas_le_of_fitGas hlt hgroup hfit
        · cases hnone

theorem length_unlockedUtxos_replicate {utxo : Utxo} (h : utxo.lockTime ≤ now) (n : ℕ)
    (warning : Option String) :
    (unlockedUtxos now ⟨warning, List.replicate n utxo⟩).length = n := by
  rw [unlockedUtxos, List.filter_replicate_of_pos (by simpa using h), List.length_map,
    List.length_replicate]

/-- With 1073741 unlocked outputs and one address the gas overflows, and the least is sent. -/
theorem not_respectsGasLimit : ¬ ∀ (client : AlephiumClient)
    (extra : AlephiumPaymentProcessingConfigExtra) (inputAddress : WalletAddress)
    (pool : PoolConfig) (now : ℤ) (group : List (String × ℚ)) (inputAddressUtxos : AddressUtxos)
    (outcome : GroupOutcome),
    payGroup client extra inputAddress pool now group (.ok inputAddressUtxos) = .ok outcome →
      RespectsGasLimit group outcome := by
  intro h
  obtain ⟨inputAddressUtxos, hwarning, hinputs⟩ : ∃ inputAddressUtxos : AddressUtxos,
      isNullOrEmpty inputAddressUtxos.warning = true ∧
        (unlockedUtxos 0 inputAddressUtxos).length = 1073741 :=
    ⟨_, rfl, @length_unlockedUtxos_replicate 0 ⟨⟨0, "key"⟩, 0⟩ le_rfl 1073741 none⟩
  have hfit : fitGas 1073741 [("miner", (1 : ℚ))] = some ([("miner", 1)], 20000) := by
    decide +kernel
  have hpay := h ⟨fun _ => none, fun _ _ => none, fun _ _ => none⟩ ⟨"wallet", false⟩
    ⟨"address", "key"⟩ { id := "alph", address := "pool" } 0 [("miner", 1)] inputAddressUtxos _ (by
      simp only [payGroup, hwarning, hinputs, hfit]
      rfl)
  rw [respectsGasLimit_payAddresses_iff _ _ _ _ List.prefix_rfl, hinputs] at hpay
  exact absurd hpay.1 (by decide +kernel)

end AlephiumPayoutHandler

end Miningcore
