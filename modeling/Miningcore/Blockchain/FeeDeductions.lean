import Miningcore.Blockchain.Alephium.AlephiumPayoutHandler
import Miningcore.Blockchain.Cryptonote.TransferSettlement
import Miningcore.Blockchain.Xelis.BlockClassification
import Miningcore.Foundation.ValueSplit
import Mathlib.Data.List.Forall2
import Mathlib.Tactic.FieldSimp

/-!
# Fees the miners pay

Alephium, Xelis and Zano pools can take the fee of a payout off the amounts. A balance that is
not larger than its share of the fee is paid in full, so that such shares are not borne.

## Implementation notes

Decimals are exact. Amounts and fees are in the smallest units. What the replies to a Xelis
request lead to, beyond the next page, is left out, and so are the entries a Zano batch persists.
-/

namespace Miningcore

open Foundation PayoutHandlerBase

/-- The amounts in the smallest units, after a deduction and rounded down. -/
def transferAmounts (smallestUnit : ℚ) (deduct : ℚ → ℚ) :
    List Balance → Except Exception (List (Balance × ℤ))
  | [] => .ok []
  | balance :: rest =>
      match toULong ⌊deduct balance.amount * smallestUnit⌋,
          transferAmounts smallestUnit deduct rest with
      | .ok amount, .ok amounts => .ok ((balance, amount) :: amounts)
      | .error e, _ => .error e
      | _, .error e => .error e

attribute [local irreducible] toULong in
theorem transferAmounts_cons (smallestUnit : ℚ) (deduct : ℚ → ℚ) (balance : Balance)
    (rest : List Balance) :
    transferAmounts smallestUnit deduct (balance :: rest) =
      match toULong ⌊deduct balance.amount * smallestUnit⌋,
          transferAmounts smallestUnit deduct rest with
      | .ok amount, .ok amounts => .ok ((balance, amount) :: amounts)
      | .error e, _ => .error e
      | _, .error e => .error e := rfl

/-! ## Xelis -/

structure XelisPaymentProcessingConfigExtra where
  maximumDestinationPerTransfer : Option ℤ := none
  keepTransactionFees : Bool := false

structure BuildTransactionTransfer where
  destination : String
  asset : String
  amount : ℤ
deriving DecidableEq

structure BuildTransactionRequest where
  transfers : List BuildTransactionTransfer
  fee : Option ℤ := none
deriving DecidableEq

/-- The replies of a Xelis wallet and of the node. -/
structure XelisReplies where
  enoughPeers : Bool
  balance : RpcResponse ℤ
  /-- The estimated fees of the transfers of a page. -/
  estimateFees : ℕ → List BuildTransactionTransfer → RpcResponse ℤ

namespace XelisPayoutHandler

def transactionDefaultAsset : String :=
  "0000000000000000000000000000000000000000000000000000000000000000"

def maximumDestinationPerTransfer : ℤ := 255

def transfers (deduct : ℚ → ℚ) (page : List Balance) :
    Except Exception (List BuildTransactionTransfer) :=
  (transferAmounts smallestUnit deduct (page.filter fun balance => 0 < balance.amount)).map
    fun amounts => amounts.map fun entry =>
      ⟨entry.1.address, transactionDefaultAsset, entry.2⟩

variable (extra : Option XelisPaymentProcessingConfigExtra)

/-- The request for a page, unless its fees cannot be estimated. -/
def buildTransactionRequest (estimateFees : List BuildTransactionTransfer → RpcResponse ℤ)
    (page : List Balance) : Except Exception (Option BuildTransactionRequest) :=
  match transfers id page with
  | .error e => .error e
  | .ok undeducted =>
      if extra.map XelisPaymentProcessingConfigExtra.keepTransactionFees = some true then
        let estimateFeesResponse := estimateFees undeducted
        if estimateFeesResponse.error.isSome then .ok none
        else
          -- `Convert.ToDecimal` of null is zero
          let estimatedTransactionFees := estimateFeesResponse.response.getD 0 / smallestUnit
          match transfers (deductShare (estimatedTransactionFees / page.length)) page,
              toULong (estimatedTransactionFees * smallestUnit) with
          | .ok deducted, .ok fee => .ok (some { transfers := deducted, fee := some fee })
          | .error e, _ => .error e
          | _, .error e => .error e
      else .ok (some { transfers := undeducted })

def pageSize : ℤ :=
  (extra.bind XelisPaymentProcessingConfigExtra.maximumDestinationPerTransfer).getD
    maximumDestinationPerTransfer

/-- The requests of the loop over the pages, with what it throws in the end. -/
def buildTransactionRequests
    (estimateFees : ℕ → List BuildTransactionTransfer → RpcResponse ℤ) :
    ℕ → List (List Balance) → List BuildTransactionRequest × Option Exception
  | _, [] => ([], none)
  | i, page :: pages =>
      match buildTransactionRequest extra (estimateFees i) page with
      | .error e => ([], some e)
      | .ok request =>
          let (requests, thrown) := buildTransactionRequests estimateFees (i + 1) pages
          (request.toList ++ requests, thrown)

/-- `PayoutAsync`. -/
def payout (replies : XelisReplies) (balances : List Balance) :
    List BuildTransactionRequest × Option Exception :=
  if replies.enoughPeers = false then ([], none)
  else match payableAmounts .ok balances with
    | .error e => ([], some e)
    | .ok amounts =>
        if amounts.length = 0 ∨ replies.balance.error.isSome then ([], none)
        -- bail if the balance does not satisfy the payments
        else if replies.balance.response.getD 0 / smallestUnit < (amounts.map Prod.snd).sum then
          ([], none)
        else
          buildTransactionRequests extra replies.estimateFees 0
            (skipTakePages (pageSize extra) balances)

end XelisPayoutHandler

/-! ## Zano -/

structure ZanoPoolPaymentProcessingConfigExtra where
  keepTransactionFees : Bool := false
  maxFee : Option ℕ := none

structure ZanoPayoutConfig where
  smallestUnit : ℚ
  walletSupportsTransferSplit : Bool
  revealPoolAddress : Bool := true
  hideMinerAddress : Bool := false
  extra : Option ZanoPoolPaymentProcessingConfigExtra := none

structure TransferDestination where
  address : String
  amount : ℤ
deriving DecidableEq

structure ZanoTransferRequest where
  destinations : List TransferDestination
  fee : ℕ
  revealSender : Bool
  hideReceiver : Bool
deriving DecidableEq

inductive ZanoWalletCommand
  | transfer
  | transferSplit
deriving DecidableEq

namespace ZanoPayoutHandler

open CryptonotePayoutHandler

def minimumTransactionFee : ℕ := 10000000000

variable (config : ZanoPayoutConfig)

def maxFee : ℕ :=
  (config.extra.bind ZanoPoolPaymentProcessingConfigExtra.maxFee).getD minimumTransactionFee

def destinations (deduct : ℚ → ℚ) (balances : List Balance) :
    Except Exception (List TransferDestination) :=
  (transferAmounts config.smallestUnit deduct
      (balances.filter fun balance => 0 < balance.amount)).map
    fun amounts => amounts.map fun entry =>
      ⟨(extractAddressAndPaymentId entry.1.address).1, entry.2⟩

def transferRequest (balances : List Balance) : Except Exception ZanoTransferRequest :=
  let maxTransactionFees := maxFee config / config.smallestUnit
  let request (destinations : List TransferDestination) : ZanoTransferRequest :=
    { destinations := destinations
      fee := maxFee config
      revealSender := config.revealPoolAddress
      hideReceiver := config.hideMinerAddress }
  match destinations config id balances with
  | .error e => .error e
  | .ok undeducted =>
      if config.extra.map ZanoPoolPaymentProcessingConfigExtra.keepTransactionFees = some true then
        let page := balances.filter fun balance => 0 < balance.amount
        (destinations config (deductShare (maxTransactionFees / page.length)) balances).map request
      else .ok (request undeducted)

/-- `EnsureBalance`; the quotients are decimals. -/
def ensureUnlocked (reply : RpcResponse ℚ) (requiredAmount : ℚ) : Except Exception Bool :=
  if reply.error.isSome then .ok false
  else match reply.response with
    | none => .error .nullReference
    | some unlockedBalance =>
        if config.smallestUnit = 0 then .error .divideByZero
        else .ok (decide (requiredAmount ≤ unlockedBalance / config.smallestUnit))

/-- What `PayoutBatch` sends to the wallet, by the replies to the request for the balance and to a
transfer. -/
def payoutBatch (balanceReply : RpcResponse ℚ)
    (transferReply : ZanoTransferRequest → RpcResponse TransferResult) (balances : List Balance) :
    Except Exception (List (ZanoWalletCommand × ZanoTransferRequest)) :=
  match ensureUnlocked config balanceReply (balances.map Balance.amount).sum with
  | .error e => .error e
  | .ok false => .ok []
  | .ok true =>
      match transferRequest config balances with
      | .error e => .error e
      | .ok request =>
          if request.destinations.length = 0 then .ok []
          else if ((transferReply request).error.map JsonRpcError.code) =
              some transactionTooLarge ∧ config.walletSupportsTransferSplit = true then
            .ok [(.transfer, request), (.transferSplit, request)]
          else .ok [(.transfer, request)]

end ZanoPayoutHandler

/-! ## Conservation -/

/-- What is sent for the amounts `paid` of a page, in the smallest units: when the miners are
charged the fee, no more than the amounts less the fee, but for a share of it for each amount that
is not larger than that; nothing above an amount; and just the rounded amounts when the miners
are not charged. Rounding adds at most `slack` to an amount. -/
structure ConservesFunds (charged : Bool) (fee slack : ℚ) (round : ℚ → ℤ) (page paid : List ℚ)
    (sent : List ℤ) : Prop where
  sum_le : charged = true → (sent.sum : ℚ) + fee ≤
    paid.sum + fee / page.length * page.countP (· ≤ fee / page.length) + slack * paid.length
  sent_le :
    List.Forall₂ (fun (amount : ℤ) (balance : ℚ) => (amount : ℚ) ≤ balance + slack) sent paid
  eq_of_not_charged : charged = false → sent = paid.map round

section conservation

variable {fee slack : ℚ} {round : ℚ → ℤ}

theorem sum_map_round_le (hround : ∀ x, (round x : ℚ) ≤ x + slack) (amounts : List ℚ) :
    (((amounts.map round).sum : ℤ) : ℚ) ≤ amounts.sum + slack * amounts.length := by
  induction amounts with
  | nil => simp
  | cons amount amounts ih =>
      have hamount := hround amount
      rw [List.map_cons, List.sum_cons, List.sum_cons, List.length_cons, Int.cast_add,
        Nat.cast_succ]
      linarith

/-- Rounded amounts of which each larger one bears its share. -/
theorem conservesFunds_map (charged : Bool) (hround : ∀ x, (round x : ℚ) ≤ x + slack)
    (hfee : 0 ≤ fee) {page : List ℚ} (hpage : page ≠ []) (keep : ℚ → Bool)
    (hkeep : ∀ amount ∈ page, fee / page.length < amount → keep amount = true) :
    ConservesFunds charged fee slack round page (page.filter keep)
      ((page.filter keep).map fun amount =>
        round (if charged = true then deductShare (fee / page.length) amount else amount)) := by
  have hshare : 0 ≤ fee / page.length := div_nonneg hfee (Nat.cast_nonneg _)
  refine ⟨?_, ?_, ?_⟩
  · rintro rfl
    have hrounded := sum_map_round_le hround
      ((page.filter keep).map (deductShare (fee / page.length)))
    rw [List.map_map, List.length_map] at hrounded
    have hborne := sum_deductShare_add_fee fee hpage hkeep
    simp only [if_true]
    change ((((page.filter keep).map (round ∘ deductShare (fee / page.length))).sum : ℤ) : ℚ) +
      fee ≤ _
    linarith
  · rw [List.forall₂_map_left_iff, List.forall₂_same]
    intro amount _
    refine (hround _).trans (add_le_add_left ?_ slack)
    split
    · exact deductShare_le hshare amount
    · exact le_rfl
  · rintro rfl
    simp

end conservation

theorem getD_false_of_ne {keepTransactionFees : Option Bool} (h : keepTransactionFees ≠ some true) :
    keepTransactionFees.getD false = false := by
  cases keepTransactionFees with
  | none => rfl
  | some keep => simpa using h

theorem toULong_intCast_eq_ok {n value : ℤ} (h : toULong (n : ℚ) = .ok value) :
    n = value ∧ 0 ≤ value := by
  have hfloor := CryptonotePayoutHandler.toULong_floor (n : ℚ)
  rw [Int.floor_intCast, h] at hfloor
  split at hfloor
  · rename_i hrange
    cases hfloor
    exact ⟨rfl, hrange.1⟩
  · cases hfloor

section amounts

variable {smallestUnit : ℚ} {deduct : ℚ → ℚ} {balances : List Balance}

theorem transferAmounts_eq_ok {amounts : List (Balance × ℤ)}
    (h : transferAmounts smallestUnit deduct balances = .ok amounts) :
    amounts = (balances.map fun balance => (balance, ⌊deduct balance.amount * smallestUnit⌋)) ∧
      ∀ balance ∈ balances, 0 ≤ ⌊deduct balance.amount * smallestUnit⌋ := by
  induction balances generalizing amounts with
  | nil =>
      cases h
      exact ⟨rfl, by simp⟩
  | cons balance balances ih =>
      rw [transferAmounts_cons, CryptonotePayoutHandler.toULong_floor] at h
      split at h
      · rename_i amount rest hamount hrest
        cases h
        obtain ⟨rfl, hnonneg⟩ := ih hrest
        split at hamount
        · rename_i hrange
          cases hamount
          exact ⟨rfl, List.forall_mem_cons.mpr ⟨hrange.1, hnonneg⟩⟩
        · cases hamount
      · cases h
      · cases h

/-- The amounts of the balances of a page in the smallest units. -/
def unitAmounts (smallestUnit : ℚ) (balances : List Balance) : List ℚ :=
  balances.map fun balance => balance.amount * smallestUnit

theorem unitAmounts_filter (hunit : 0 < smallestUnit) (balances : List Balance) :
    unitAmounts smallestUnit (balances.filter fun balance => 0 < balance.amount) =
      (unitAmounts smallestUnit balances).filter (0 < ·) := by
  rw [unitAmounts, unitAmounts, List.filter_map]
  congr 1
  apply List.filter_congr
  intro balance _
  simp only [Function.comp_apply, mul_pos_iff_of_pos_right hunit]

/-- The payable balances of a page, rounded down, of which each larger one bears its share. -/
theorem conservesFunds_transferAmounts (charged : Bool) {fee : ℚ} (hunit : 0 < smallestUnit)
    (hfee : 0 ≤ fee) (hbalances : balances ≠ []) {amounts : List (Balance × ℤ)}
    (h : transferAmounts smallestUnit
        (if charged = true then deductShare (fee / smallestUnit / balances.length) else id)
        (balances.filter fun balance => 0 < balance.amount) = .ok amounts) :
    amounts.map Prod.fst = (balances.filter fun balance => 0 < balance.amount) ∧
      ConservesFunds charged fee 0 Int.floor (unitAmounts smallestUnit balances)
        (unitAmounts smallestUnit (balances.filter fun balance => 0 < balance.amount))
        (amounts.map Prod.snd) := by
  obtain ⟨rfl, -⟩ := transferAmounts_eq_ok h
  refine ⟨by rw [List.map_map]; exact List.map_id _, ?_⟩
  have hlength : (unitAmounts smallestUnit balances).length = balances.length :=
    List.length_map _
  have hround : ∀ x : ℚ, (⌊x⌋ : ℚ) ≤ x + 0 := by
    intro x
    rw [add_zero]
    exact Int.floor_le x
  have hpage : unitAmounts smallestUnit balances ≠ [] := by
    simpa [unitAmounts] using hbalances
  have hkeep : ∀ amount ∈ unitAmounts smallestUnit balances,
      fee / (unitAmounts smallestUnit balances).length < amount → decide (0 < amount) = true := by
    intro amount _ hlarger
    exact decide_eq_true ((div_nonneg hfee (Nat.cast_nonneg _)).trans_lt hlarger)
  have hconserves := conservesFunds_map charged hround hfee hpage _ hkeep
  rw [← unitAmounts_filter hunit, hlength] at hconserves
  convert hconserves using 1
  rw [unitAmounts, List.map_map, List.map_map]
  apply List.map_congr_left
  intro balance _
  have hscale : fee / smallestUnit / balances.length * smallestUnit = fee / balances.length := by
    field_simp
  cases charged with
  | false => rfl
  | true =>
      simp only [Function.comp_apply, if_true]
      rw [deductShare_mul hunit, hscale]

end amounts

namespace XelisPayoutHandler

variable {extra : Option XelisPaymentProcessingConfigExtra}

/-- Whether the configuration charges the miners. -/
def charged (extra : Option XelisPaymentProcessingConfigExtra) : Bool :=
  (extra.map XelisPaymentProcessingConfigExtra.keepTransactionFees).getD false

/-- The request pays the payable balances of a page. -/
structure IsConserving (extra : Option XelisPaymentProcessingConfigExtra) (page : List Balance)
    (request : BuildTransactionRequest) : Prop where
  destinations_eq : request.transfers.map BuildTransactionTransfer.destination =
    (page.filter fun balance => 0 < balance.amount).map Balance.address
  conservesFunds : ConservesFunds (charged extra) (request.fee.getD 0 : ℤ) 0 Int.floor
    (unitAmounts smallestUnit page)
    (unitAmounts smallestUnit (page.filter fun balance => 0 < balance.amount))
    (request.transfers.map BuildTransactionTransfer.amount)
  fee_eq_none : charged extra = false → request.fee = none

theorem transfers_eq_ok {deduct : ℚ → ℚ} {page : List Balance}
    {ts : List BuildTransactionTransfer} (h : transfers deduct page = .ok ts) :
    ∃ amounts, transferAmounts smallestUnit deduct
        (page.filter fun balance => 0 < balance.amount) = .ok amounts ∧
      ts.map BuildTransactionTransfer.destination =
        (amounts.map Prod.fst).map Balance.address ∧
      ts.map BuildTransactionTransfer.amount = amounts.map Prod.snd := by
  rw [transfers] at h
  cases hamounts : transferAmounts smallestUnit deduct
      (page.filter fun balance => 0 < balance.amount) with
  | error e => simp [hamounts, Except.map] at h
  | ok amounts =>
      rw [hamounts] at h
      cases h
      exact ⟨amounts, rfl, by simp, by simp⟩

theorem smallestUnit_pos : 0 < smallestUnit := by
  rw [smallestUnit]
  positivity

theorem isConserving_of_transfers (isCharged : Bool) {fee : ℤ} (hfee : 0 ≤ fee)
    {page : List Balance} (hpage : page ≠ []) {ts : List BuildTransactionTransfer}
    (h : transfers (if isCharged = true then deductShare (fee / smallestUnit / page.length) else id)
      page = .ok ts) :
    ts.map BuildTransactionTransfer.destination =
        (page.filter fun balance => 0 < balance.amount).map Balance.address ∧
      ConservesFunds isCharged (fee : ℚ) 0 Int.floor (unitAmounts smallestUnit page)
        (unitAmounts smallestUnit (page.filter fun balance => 0 < balance.amount))
        (ts.map BuildTransactionTransfer.amount) := by
  obtain ⟨amounts, hamounts, hdestination, hamount⟩ := transfers_eq_ok h
  obtain ⟨hfst, hconserves⟩ := conservesFunds_transferAmounts isCharged smallestUnit_pos
    (Int.cast_nonneg hfee) hpage hamounts
  rw [hdestination, hamount, hfst]
  exact ⟨rfl, hconserves⟩

theorem isConserving_buildTransactionRequest
    {estimateFees : List BuildTransactionTransfer → RpcResponse ℤ} {page : List Balance}
    (hpage : page ≠ []) {request : BuildTransactionRequest}
    (h : buildTransactionRequest extra estimateFees page = .ok (some request)) :
    IsConserving extra page request := by
  rw [buildTransactionRequest] at h
  cases hundeducted : transfers id page with
  | error e => simp [hundeducted] at h
  | ok undeducted =>
      simp only [hundeducted] at h
      by_cases hkeep :
          extra.map XelisPaymentProcessingConfigExtra.keepTransactionFees = some true
      · rw [if_pos hkeep] at h
        split at h
        · cases h
        · generalize (estimateFees undeducted).response.getD 0 = estimate at h
          have hcast : (estimate : ℚ) / smallestUnit * smallestUnit = ((estimate : ℤ) : ℚ) :=
            div_mul_cancel₀ _ smallestUnit_pos.ne'
          rw [hcast] at h
          split at h
          · rename_i deducted fee hdeducted hfee
            cases h
            obtain ⟨rfl, hnonneg⟩ := toULong_intCast_eq_ok hfee
            have hcharged : charged extra = true := by
              rw [charged, hkeep]
              rfl
            obtain ⟨hdestinations, hconserves⟩ :=
              isConserving_of_transfers true hnonneg hpage hdeducted
            refine ⟨hdestinations, ?_, ?_⟩
            · rw [hcharged]
              exact hconserves
            · rw [hcharged]
              exact fun h => absurd h (by decide)
          · cases h
          · cases h
      · rw [if_neg hkeep] at h
        cases h
        have hcharged : charged extra = false := getD_false_of_ne hkeep
        obtain ⟨hdestinations, hconserves⟩ :=
          isConserving_of_transfers false le_rfl hpage hundeducted
        refine ⟨hdestinations, ?_, fun _ => rfl⟩
        rw [hcharged]
        exact hconserves

theorem exists_of_mem_buildTransactionRequests
    {estimateFees : ℕ → List BuildTransactionTransfer → RpcResponse ℤ} {i : ℕ}
    {pages : List (List Balance)} {request : BuildTransactionRequest}
    (h : request ∈ (buildTransactionRequests extra estimateFees i pages).1) :
    ∃ j, ∃ page ∈ pages,
      buildTransactionRequest extra (estimateFees j) page = .ok (some request) := by
  induction pages generalizing i with
  | nil => cases h
  | cons page pages ih =>
      rw [buildTransactionRequests] at h
      split at h
      · cases h
      · rename_i built hbuilt
        obtain hfirst | hrest := List.mem_append.mp h
        · rw [Option.mem_toList] at hfirst
          exact ⟨i, page, List.mem_cons_self, hfirst ▸ hbuilt⟩
        · obtain ⟨j, page', hmem, hpage'⟩ := ih hrest
          exact ⟨j, page', List.mem_cons_of_mem page hmem, hpage'⟩

/-- Every request of a payout pays a page of the balances. A page size of zero would ask for the fee
of a transaction without transfers. -/
theorem exists_isConserving (hsize : pageSize extra ≠ 0) {replies : XelisReplies}
    {balances : List Balance} {request : BuildTransactionRequest}
    (h : request ∈ (payout extra replies balances).1) :
    ∃ page ∈ skipTakePages (pageSize extra) balances, IsConserving extra page request := by
  rw [payout] at h
  split at h
  · cases h
  · split at h
    · cases h
    · split at h
      · cases h
      · split at h
        · cases h
        · obtain ⟨j, page, hmem, hpage⟩ := exists_of_mem_buildTransactionRequests h
          exact ⟨page, hmem,
            isConserving_buildTransactionRequest (ne_nil_of_mem_skipTakePages hsize hmem) hpage⟩

end XelisPayoutHandler

namespace ZanoPayoutHandler

open CryptonotePayoutHandler

variable {config : ZanoPayoutConfig}

/-- Whether the configuration charges the miners. -/
def charged (config : ZanoPayoutConfig) : Bool :=
  (config.extra.map ZanoPoolPaymentProcessingConfigExtra.keepTransactionFees).getD false

/-- The request pays the payable balances of a batch, which are also those that bear the fee. -/
structure IsConserving (config : ZanoPayoutConfig) (balances : List Balance)
    (request : ZanoTransferRequest) : Prop where
  destinations_eq : request.destinations.map TransferDestination.address =
    (balances.filter fun balance => 0 < balance.amount).map fun balance =>
      (extractAddressAndPaymentId balance.address).1
  conservesFunds : ConservesFunds (charged config) request.fee 0 Int.floor
    (unitAmounts config.smallestUnit (balances.filter fun balance => 0 < balance.amount))
    (unitAmounts config.smallestUnit (balances.filter fun balance => 0 < balance.amount))
    (request.destinations.map TransferDestination.amount)

theorem destinations_eq_ok {deduct : ℚ → ℚ} {balances : List Balance}
    {ds : List TransferDestination} (h : destinations config deduct balances = .ok ds) :
    ∃ amounts, transferAmounts config.smallestUnit deduct
        (balances.filter fun balance => 0 < balance.amount) = .ok amounts ∧
      ds.map TransferDestination.address =
        (amounts.map Prod.fst).map (fun balance =>
          (extractAddressAndPaymentId balance.address).1) ∧
      ds.map TransferDestination.amount = amounts.map Prod.snd := by
  rw [destinations] at h
  cases hamounts : transferAmounts config.smallestUnit deduct
      (balances.filter fun balance => 0 < balance.amount) with
  | error e => simp [hamounts, Except.map] at h
  | ok amounts =>
      rw [hamounts] at h
      cases h
      exact ⟨amounts, rfl, by simp, by simp⟩

theorem payable_ne_nil {deduct : ℚ → ℚ} {balances : List Balance} {ds : List TransferDestination}
    (h : destinations config deduct balances = .ok ds) (hne : ds ≠ []) :
    (balances.filter fun balance => 0 < balance.amount) ≠ [] := by
  obtain ⟨amounts, hamounts, -, hamount⟩ := destinations_eq_ok h
  intro hnil
  rw [hnil] at hamounts
  cases hamounts
  exact hne (List.map_eq_nil_iff.mp hamount)

/-- A positive balance cannot be sent in units that are not. -/
theorem smallestUnit_pos_of_destinations {balances : List Balance} {ds : List TransferDestination}
    (hzero : config.smallestUnit ≠ 0)
    (hpayable : (balances.filter fun balance => 0 < balance.amount) ≠ [])
    (h : destinations config id balances = .ok ds) : 0 < config.smallestUnit := by
  obtain ⟨amounts, hamounts, -, -⟩ := destinations_eq_ok h
  obtain ⟨rfl, hnonneg⟩ := transferAmounts_eq_ok hamounts
  obtain ⟨balance, hbalance⟩ := List.exists_mem_of_ne_nil _ hpayable
  have hpos : 0 < balance.amount := of_decide_eq_true (List.mem_filter.mp hbalance).2
  have hunits : 0 ≤ balance.amount * config.smallestUnit :=
    Int.floor_nonneg.mp (hnonneg balance hbalance)
  exact lt_of_le_of_ne (nonneg_of_mul_nonneg_right hunits hpos) hzero.symm

theorem isConserving_of_destinations (isCharged : Bool) (hunit : 0 < config.smallestUnit)
    {balances : List Balance} {ds : List TransferDestination}
    (hpayable : (balances.filter fun balance => 0 < balance.amount) ≠ [])
    (h : destinations config (if isCharged = true then
        deductShare (maxFee config / config.smallestUnit /
          (balances.filter fun balance => 0 < balance.amount).length) else id) balances = .ok ds) :
    ds.map TransferDestination.address =
        (balances.filter fun balance => 0 < balance.amount).map (fun balance =>
          (extractAddressAndPaymentId balance.address).1) ∧
      ConservesFunds isCharged (maxFee config) 0 Int.floor
        (unitAmounts config.smallestUnit (balances.filter fun balance => 0 < balance.amount))
        (unitAmounts config.smallestUnit (balances.filter fun balance => 0 < balance.amount))
        (ds.map TransferDestination.amount) := by
  obtain ⟨amounts, hamounts, haddress, hamount⟩ := destinations_eq_ok h
  have hpaid : (balances.filter fun balance => 0 < balance.amount).filter
      (fun balance => 0 < balance.amount) = balances.filter fun balance => 0 < balance.amount := by
    simp only [List.filter_filter, Bool.and_self]
  rw [← hpaid] at hamounts
  obtain ⟨hfst, hconserves⟩ := conservesFunds_transferAmounts isCharged hunit
    (Nat.cast_nonneg _) hpayable (by simpa only [hpaid] using hamounts)
  rw [haddress, hamount, hfst]
  rw [hpaid] at hconserves
  exact ⟨by rw [hpaid], hconserves⟩

theorem isConserving_transferRequest (hzero : config.smallestUnit ≠ 0) {balances : List Balance}
    {request : ZanoTransferRequest} (hne : request.destinations ≠ [])
    (h : transferRequest config balances = .ok request) : IsConserving config balances request := by
  rw [transferRequest] at h
  cases hundeducted : destinations config id balances with
  | error e => simp [hundeducted] at h
  | ok undeducted =>
      simp only [hundeducted] at h
      by_cases hkeep :
          config.extra.map ZanoPoolPaymentProcessingConfigExtra.keepTransactionFees = some true
      · have hcharged : charged config = true := by
          rw [charged, hkeep]
          rfl
        rw [if_pos hkeep] at h
        cases hdeducted : destinations config (deductShare (maxFee config / config.smallestUnit /
            (balances.filter fun balance => 0 < balance.amount).length)) balances with
        | error e => simp [hdeducted, Except.map] at h
        | ok deducted =>
            rw [hdeducted] at h
            cases h
            have hpayable := payable_ne_nil hdeducted hne
            have hunit := smallestUnit_pos_of_destinations hzero hpayable hundeducted
            obtain ⟨haddress, hconserves⟩ :=
              isConserving_of_destinations true hunit hpayable hdeducted
            exact ⟨haddress, hcharged ▸ hconserves⟩
      · rw [if_neg hkeep] at h
        cases h
        have hpayable := payable_ne_nil hundeducted hne
        have hunit := smallestUnit_pos_of_destinations hzero hpayable hundeducted
        obtain ⟨haddress, hconserves⟩ :=
          isConserving_of_destinations false hunit hpayable hundeducted
        have hcharged : charged config = false := getD_false_of_ne hkeep
        exact ⟨haddress, hcharged ▸ hconserves⟩

/-- What a batch sends pays its balances. -/
theorem isConserving_of_payoutBatch {balanceReply : RpcResponse ℚ}
    {transferReply : ZanoTransferRequest → RpcResponse TransferResult} {balances : List Balance}
    {calls : List (ZanoWalletCommand × ZanoTransferRequest)}
    (h : payoutBatch config balanceReply transferReply balances = .ok calls) :
    ∀ call ∈ calls, IsConserving config balances call.2 := by
  rw [payoutBatch] at h
  split at h
  · cases h
  · cases h
    simp
  · rename_i hensured
    have hzero : config.smallestUnit ≠ 0 := by
      rintro hzero
      rw [ensureUnlocked] at hensured
      split at hensured
      · cases hensured
      · split at hensured
        · cases hensured
        · simp at hensured
    split at h
    · cases h
    · rename_i request hrequest
      split at h
      · cases h
        simp
      · rename_i hne
        have hconserving := isConserving_transferRequest hzero
          (fun hnil => hne (List.length_eq_zero_iff.mpr hnil)) hrequest
        split at h <;> cases h <;> simp [hconserving]

end ZanoPayoutHandler

namespace AlephiumPayoutHandler

open Alephium

/-- The settlement pays the first addresses of a group. Its fee is its gas at the default price. -/
structure IsConserving (extra : AlephiumPaymentProcessingConfigExtra)
    (kept : List (String × ℚ)) (settlement : BuildSettlement) : Prop where
  destinations_eq : settlement.destinations.map Terminus.address = kept.map Prod.fst
  conservesFunds : ConservesFunds extra.keepTransactionFees
    (settlement.gasAmount * defaultGasPrice) (1 / 2) roundHalfEven
    (kept.map fun pair => pair.2 * smallestUnit) (kept.map fun pair => pair.2 * smallestUnit)
    (settlement.destinations.map Terminus.attoAlphAmount)

variable {client : AlephiumClient} {extra : AlephiumPaymentProcessingConfigExtra}
  {inputAddress : WalletAddress} {pool : PoolConfig} {now : ℤ}

theorem attoAlphAmount_eq (keep : Bool) (gas : ℤ) (count : ℕ) (amount : ℚ) :
    attoAlphAmount (some keep) gas count amount =
      roundHalfEven (if keep = true then
        deductShare (gas * defaultGasPrice / count) (amount * smallestUnit)
      else amount * smallestUnit) := by
  cases keep <;> rfl

theorem isConserving_payAddresses {inputUtxos : List OutputRef} {kept : List (String × ℚ)}
    (hkept : kept ≠ []) {gas : ℤ} (hgas : 0 ≤ gas) :
    ∀ settlement ∈ (payAddresses client extra inputAddress pool inputUtxos kept gas).settlement,
      IsConserving extra kept settlement := by
  rintro settlement ⟨⟩
  have hfee : 0 ≤ (gas : ℚ) * defaultGasPrice :=
    mul_nonneg (Int.cast_nonneg hgas) (by rw [defaultGasPrice]; positivity)
  have hpage : (kept.map fun pair => pair.2 * smallestUnit) ≠ [] := by
    simpa using hkept
  have hconserves := conservesFunds_map extra.keepTransactionFees roundHalfEven_le hfee hpage
    (fun _ => true) (fun _ _ _ => rfl)
  rw [List.filter_true, List.length_map, List.map_map] at hconserves
  refine ⟨by simp [batchDestinations], ?_⟩
  convert hconserves using 1
  rw [batchDestinations, List.map_map]
  apply List.map_congr_left
  intro pair _
  exact attoAlphAmount_eq _ _ _ _

theorem gas_nonneg_of_fitGas {α : Type} {inputs : ℕ} {group kept : List α} {gas : ℤ}
    (hgroup : group ≠ []) (h : fitGas inputs group = some (kept, gas)) : 0 ≤ gas ∧ kept ≠ [] := by
  obtain ⟨-, rfl, hgas⟩ | ⟨removed, hremoved, -, -, -, hlength, hgas⟩ := of_fitGas_eq_some h
  · rw [hgas]
    exact ⟨le_max_of_le_left (by simp [minGasPerTx]), hgroup⟩
  · rw [hgas]
    refine ⟨by simp [maxGasPerTx], List.ne_nil_of_length_pos ?_⟩
    omega

theorem exists_isConserving_payGroup {group : List (String × ℚ)}
    {response : Except Exception AddressUtxos} {outcome : GroupOutcome}
    (h : payGroup client extra inputAddress pool now group response = .ok outcome) :
    ∀ settlement ∈ outcome.settlement, ∃ kept, kept <+: group ∧
      IsConserving extra kept settlement := by
  unfold payGroup at h
  split at h
  · cases h
    rintro settlement ⟨⟩
  · rename_i hlength
    have hgroup : group ≠ [] := fun hnil => hlength (List.length_eq_zero_iff.mpr hnil)
    split at h
    · cases h
    · split at h
      · cases h
        rintro settlement ⟨⟩
      · dsimp only at h
        split at h
        · cases h
          rintro settlement ⟨⟩
        · rename_i kept gas hfit
          cases h
          obtain ⟨hgas, hkept⟩ := gas_nonneg_of_fitGas hgroup hfit
          intro settlement hsettlement
          exact ⟨kept, fitGas_isPrefix hfit, isConserving_payAddresses hkept hgas settlement
            hsettlement⟩

/-- Every settlement of a payout pays the first addresses of a group, by a configuration that
is there. -/
theorem exists_isConserving {extra : Option AlephiumPaymentProcessingConfigExtra}
    {groups : List (List (String × ℚ) × Except Exception AddressUtxos)} {outcome : GroupOutcome}
    (h : outcome ∈ (payout client inputAddress pool now extra groups).1) :
    ∀ settlement ∈ outcome.settlement, ∃ config ∈ extra, ∃ group ∈ groups.map Prod.fst,
      ∃ kept, kept <+: group ∧ IsConserving config kept settlement := by
  cases extra with
  | none => cases h
  | some config =>
      intro settlement hsettlement
      refine ⟨config, rfl, ?_⟩
      rw [payout] at h
      induction groups with
      | nil => cases h
      | cons entry groups ih =>
          obtain ⟨group, response⟩ := entry
          rw [payGroups] at h
          split at h
          · cases h
          · rename_i first hfirst
            obtain rfl | hrest := List.mem_cons.mp h
            · obtain ⟨kept, hprefix, hconserving⟩ :=
                exists_isConserving_payGroup hfirst settlement hsettlement
              exact ⟨group, List.mem_cons_self, kept, hprefix, hconserving⟩
            · obtain ⟨group', hmem, hkept⟩ := ih hrest
              exact ⟨group', List.mem_cons_of_mem group hmem, hkept⟩

end AlephiumPayoutHandler

/-- What the three payouts send is covered by the balances and the shares of the fee that are too
large for them. -/
theorem payouts_conserveFunds :
    (∀ client inputAddress pool now extra groups,
      ∀ outcome ∈ (AlephiumPayoutHandler.payout client inputAddress pool now extra groups).1,
        ∀ settlement ∈ outcome.settlement, ∃ config ∈ extra, ∃ group ∈ groups.map Prod.fst,
          ∃ kept, kept <+: group ∧
            AlephiumPayoutHandler.IsConserving config kept settlement) ∧
    (∀ extra replies balances, XelisPayoutHandler.pageSize extra ≠ 0 →
      ∀ request ∈ (XelisPayoutHandler.payout extra replies balances).1,
        ∃ page ∈ skipTakePages (XelisPayoutHandler.pageSize extra) balances,
          XelisPayoutHandler.IsConserving extra page request) ∧
    ∀ config balanceReply transferReply balances calls,
      ZanoPayoutHandler.payoutBatch config balanceReply transferReply balances = .ok calls →
        ∀ call ∈ calls, ZanoPayoutHandler.IsConserving config balances call.2 := by
  refine ⟨?_, ?_, ?_⟩
  · intro client inputAddress pool now extra groups outcome houtcome
    exact AlephiumPayoutHandler.exists_isConserving houtcome
  · intro extra replies balances hsize request hrequest
    exact XelisPayoutHandler.exists_isConserving hsize hrequest
  · intro config balanceReply transferReply balances calls hcalls
    exact ZanoPayoutHandler.isConserving_of_payoutBatch hcalls

/-- A balance of a thousandth is less than its half of the Zano fee, which is paid nevertheless. -/
theorem not_payouts_conserveFunds : ¬ ∀ (config : ZanoPayoutConfig) (balanceReply : RpcResponse ℚ)
    (transferReply : ZanoTransferRequest → RpcResponse TransferResult) (balances : List Balance)
    (calls : List (ZanoWalletCommand × ZanoTransferRequest)),
    (∀ balance ∈ balances, 0 < balance.amount) → ZanoPayoutHandler.charged config = true →
      ZanoPayoutHandler.payoutBatch config balanceReply transferReply balances = .ok calls →
        ∀ call ∈ calls,
          (((call.2.destinations.map TransferDestination.amount).sum : ℤ) : ℚ) + call.2.fee ≤
            (unitAmounts config.smallestUnit balances).sum := by
  intro h
  have hsent := h
    { smallestUnit := 1000000000000
      walletSupportsTransferSplit := true
      extra := some { keepTransactionFees := true } }
    ⟨some 1000000000000000, none⟩ (fun _ => ⟨some {}, none⟩)
    [⟨"zano", "miner", 10⟩, ⟨"zano", "other", 1 / 1000⟩]
    [(.transfer,
      { destinations := [⟨"miner", 9995000000000⟩, ⟨"other", 1000000000⟩]
        fee := 10000000000
        revealSender := true
        hideReceiver := false })]
    (by decide +kernel) rfl (by decide +kernel) _ List.mem_cons_self
  exact absurd hsent (by decide +kernel)

end Miningcore
