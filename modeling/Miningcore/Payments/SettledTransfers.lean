import Miningcore.Payments.AcceptedTransfers
import Miningcore.Blockchain.Bitcoin.BitcoinPayoutHandler

/-!
# Settled transfers

A transfer is settled when the balance it was made for is reduced by what was
sent. A balance that is not reduced will be paid again.
-/

namespace Miningcore

open Foundation PayoutHandlerBase

/-- The entries reset what the transfers have sent. -/
def Settles (persisted : List (Balance × Option String)) (transfers : List Transfer) : Prop :=
  ∀ transfer ∈ transfers, resetAmount persisted transfer.address = transfer.amount

instance (persisted : List (Balance × Option String)) (transfers : List Transfer) :
    Decidable (Settles persisted transfers) :=
  inferInstanceAs (Decidable (∀ transfer ∈ transfers, _ = _))

/-- By the end of a call, the balance behind every accepted transfer is reduced by the amount of
the transfer. -/
def BalancesReduced (pool : PoolConfig) (db : Database) (outcome : PayoutOutcome) : Prop :=
  ∀ transfer ∈ outcome.transfers,
    BalanceRepository.getBalance db pool.id transfer.address -
      BalanceRepository.getBalance outcome.db pool.id transfer.address = transfer.amount

instance (pool : PoolConfig) (db : Database) (outcome : PayoutOutcome) :
    Decidable (BalancesReduced pool db outcome) :=
  inferInstanceAs (Decidable (∀ transfer ∈ outcome.transfers, _ = _))

theorem balancesReduced_iff_settles {pool : PoolConfig} {db : Database} {outcome : PayoutOutcome}
    (h : WritesPersisted pool db outcome) :
    BalancesReduced pool db outcome ↔ Settles outcome.persisted outcome.transfers := by
  apply forall₂_congr
  intro transfer _
  rw [h, getBalance_persistEntries, sub_sub_cancel]

theorem resetAmount_append (entries entries' : List (Balance × Option String))
    (address : String) :
    resetAmount (entries ++ entries') address =
      resetAmount entries address + resetAmount entries' address := by
  simp [resetAmount]

theorem resetAmount_eq_zero (entries : List (Balance × Option String)) {address : String}
    (h : ∀ entry ∈ entries, entry.1.address ≠ address) : resetAmount entries address = 0 := by
  have hnone : entries.filter (fun entry => entry.1.address = address) = [] := by
    apply List.filter_eq_nil_iff.mpr
    intro entry hmem heq
    exact h entry hmem (of_decide_eq_true heq)
  rw [resetAmount, hnone]
  rfl

theorem settles_nothing (persisted : List (Balance × Option String)) : Settles persisted [] :=
  fun _ hmem => (List.not_mem_nil hmem).elim

/-- Entries and transfers for other addresses make no difference. -/
theorem settles_append_iff {keys : List String}
    {persisted persisted' : List (Balance × Option String)}
    {transfers transfers' : List Transfer}
    (hpersisted : ∀ entry ∈ persisted, entry.1.address ∈ keys)
    (htransfers : ∀ transfer ∈ transfers, transfer.address ∈ keys)
    (hpersisted' : ∀ entry ∈ persisted', entry.1.address ∉ keys)
    (htransfers' : ∀ transfer ∈ transfers', transfer.address ∉ keys) :
    Settles (persisted ++ persisted') (transfers ++ transfers') ↔
      Settles persisted transfers ∧ Settles persisted' transfers' := by
  have hleft : ∀ transfer ∈ transfers,
      resetAmount (persisted ++ persisted') transfer.address =
        resetAmount persisted transfer.address := by
    intro transfer hmem
    rw [resetAmount_append, resetAmount_eq_zero persisted', add_zero]
    exact fun entry hentry heq => hpersisted' entry hentry (heq ▸ htransfers transfer hmem)
  have hright : ∀ transfer ∈ transfers',
      resetAmount (persisted ++ persisted') transfer.address =
        resetAmount persisted' transfer.address := by
    intro transfer hmem
    rw [resetAmount_append, resetAmount_eq_zero persisted, zero_add]
    exact fun entry hentry heq => htransfers' transfer hmem (heq ▸ hpersisted entry hentry)
  rw [Settles, List.forall_mem_append]
  apply and_congr
  · exact forall₂_congr fun transfer hmem => by rw [hleft transfer hmem]
  · exact forall₂_congr fun transfer hmem => by rw [hright transfer hmem]

/-- The transfers of one transaction are settled when each balance is sent as it is, if its
payment is persisted, and sent as nothing otherwise. -/
theorem settles_transaction_iff {balances paid : List Balance}
    (haddresses : (balances.map Balance.address).Nodup) (hpaid : paid ⊆ balances)
    (sent : Balance → ℚ) (txId : Option String) (persisted : Prop) [Decidable persisted] :
    Settles (if persisted then balances.map (·, txId) else [])
        (paid.map fun balance => ⟨balance.address, sent balance⟩) ↔
      ∀ balance ∈ paid, sent balance = if persisted then balance.amount else 0 := by
  have hentries : ((balances.map (·, txId)).map fun entry => entry.1.address).Nodup := by
    rwa [List.map_map]
  rw [Settles, List.forall_mem_map]
  apply forall₂_congr
  intro balance hmem
  by_cases hpersisted : persisted
  · have hentry : (balance, txId) ∈ balances.map (·, txId) := List.mem_map_of_mem (hpaid hmem)
    have hreset := resetAmount_eq hentries hentry
    rw [if_pos hpersisted, if_pos hpersisted, hreset]
    exact eq_comm
  · rw [if_neg hpersisted, if_neg hpersisted]
    exact eq_comm

theorem resetAmount_filterMap {α : Type} {items : List α} {key : α → String}
    {paid : α → Option (Balance × Option String)} (hkeys : (items.map key).Nodup)
    (hpaid : ∀ x entry, paid x = some entry → entry.1.address = key x) {x : α} (hx : x ∈ items) :
    resetAmount (items.filterMap paid) (key x) =
      ((paid x).map fun entry => entry.1.amount).getD 0 := by
  induction items with
  | nil => cases hx
  | cons y items ih =>
      obtain ⟨hy, hitems⟩ := List.nodup_cons.mp hkeys
      have hsplit : (y :: items).filterMap paid = (paid y).toList ++ items.filterMap paid := by
        cases hpaidy : paid y <;> simp [hpaidy]
      rw [hsplit, resetAmount_append]
      cases List.mem_cons.mp hx with
      | inl heq =>
          subst heq
          rw [resetAmount_eq_zero (items.filterMap paid), add_zero]
          · cases hpaidx : paid x with
            | none => rfl
            | some entry => simp [resetAmount, hpaid x entry hpaidx]
          · intro entry hentry heq
            obtain ⟨z, hz, hpaidz⟩ := List.mem_filterMap.mp hentry
            exact hy (heq ▸ hpaid z entry hpaidz ▸ List.mem_map_of_mem hz)
      | inr hmem =>
          rw [ih hitems hmem, resetAmount_eq_zero ((paid y).toList), zero_add]
          intro entry hentry heq
          have hpaidy : paid y = some entry := by simpa using hentry
          exact hy (hpaid y entry hpaidy ▸ heq ▸ List.mem_map_of_mem hmem)

/-- What is persisted for one transaction, and for a transaction each. -/
theorem persisted_persistPayments {pool : PoolConfig} {failure : Failures} {db : Database}
    (transfers : List Transfer) (balances : List Balance) (txId : Option String) :
    (PayoutOutcome.afterPersist transfers (balances.map (·, txId)) db
        (persistPayments pool failure balances txId db)).persisted =
      if isNullOrEmpty txId = false ∧ Commits failure then balances.map (·, txId) else [] := by
  split
  · rename_i h
    rw [persistPayments_eq_ok_iff.mpr ⟨h.1, h.2, rfl⟩]
    rfl
  · rename_i h
    cases hpersist : persistPayments pool failure balances txId db with
    | error e => rfl
    | ok db' =>
        obtain ⟨htxId, hcommits, _⟩ := persistPayments_eq_ok_iff.mp hpersist
        exact absurd ⟨htxId, hcommits⟩ h

theorem persisted_persistPaymentsByBalance {pool : PoolConfig} {failure : Failures} {db : Database}
    {transfers : List Transfer} {entries : List (Balance × Option String)} (hne : entries ≠ []) :
    (PayoutOutcome.afterPersist transfers entries db
        (persistPaymentsByBalance pool failure entries db)).persisted =
      if Commits failure then entries else [] := by
  split
  · rename_i h
    rw [persistPaymentsByBalance_eq_ok_iff.mpr ⟨hne, h, rfl⟩]
    rfl
  · rename_i h
    cases hpersist : persistPaymentsByBalance pool failure entries db with
    | error e => rfl
    | ok db' => exact absurd (persistPaymentsByBalance_eq_ok_iff.mp hpersist).2.1 h

/-! ## Bitcoin -/

namespace BitcoinPayoutHandler

variable {config : BitcoinPayoutConfig} {wallet : BitcoinWallet} {pool : PoolConfig}
  {cancelledAfter : Option Nat} {failure : Failures} {balances : List Balance} {db : Database}

/-- The amounts of the balances above zero, rounded to a number of places. -/
def roundedAmounts (places : ℤ) (balances : List Balance) : List (String × ℚ) :=
  (balances.filter fun balance => 0 < balance.amount).map fun balance =>
    (balance.address, roundDecimals places.toNat balance.amount)

/-- What an accepted `sendmany` sends is the balances themselves, if it has returned a transaction
id and the transaction commits, and nothing otherwise. -/
def SendManySettled (config : BitcoinPayoutConfig) (wallet : BitcoinWallet) (failure : Failures)
    (balances : List Balance) : Prop :=
  ∀ txId, callUnlocked config.walletPassword wallet.sendMany wallet.walletPassphrase = .ok txId →
    ∀ balance ∈ balances.filter fun balance => 0 < balance.amount,
      roundDecimals config.payoutDecimalPlaces.toNat balance.amount =
        if isNullOrEmpty txId = false ∧ Commits failure then balance.amount else 0

/-- An accepted `sendtoaddress` returns a transaction id, the loop is not cancelled, and the
transaction commits; or it sends nothing. -/
def SendToAddressSettled (config : BitcoinPayoutConfig) (wallet : BitcoinWallet)
    (cancelledAfter : Option Nat) (failure : Failures) (balances : List Balance) : Prop :=
  ∀ amount ∈ taken cancelledAfter (roundedAmounts config.payoutDecimalPlaces balances),
    (wallet.sendToAddress amount.1 amount.2).error = none →
      amount.2 = 0 ∨ cancelledAfter = none ∧
        isNullOrEmpty (wallet.sendToAddress amount.1 amount.2).response = false ∧ Commits failure

/-- The accepted transfers of a call are settled. Rounding throws for a number of places that does
not exist, before anything is sent. -/
def IsSettled (config : BitcoinPayoutConfig) (wallet : BitcoinWallet) (cancelledAfter : Option Nat)
    (failure : Failures) (balances : List Balance) : Prop :=
  0 ≤ config.payoutDecimalPlaces → config.payoutDecimalPlaces ≤ 28 →
    (config.hasBrokenSendMany = false → SendManySettled config wallet failure balances) ∧
    (config.hasBrokenSendMany = true →
      SendToAddressSettled config wallet cancelledAfter failure balances)

theorem payableAmounts_mathRound {places : ℤ} (hplaces : 0 ≤ places ∧ places ≤ 28)
    (haddresses : (balances.map Balance.address).Nodup) :
    payableAmounts (mathRound places) balances = .ok (roundedAmounts places balances) := by
  apply payableAmounts_eq_ok _ haddresses
  intro x
  rw [mathRound, if_neg]
  omega

theorem writesPersisted_payout :
    WritesPersisted pool db
      (payout config wallet pool cancelledAfter failure balances db) := by
  rw [payout]
  split
  · rfl
  · split
    · rfl
    · split
      · split
        · rfl
        · exact writesPersisted_persistPayments _ _ _ _
      · exact writesPersisted_oneByOne _ _ _ _

/-- The fallback: each accepted amount is settled by the entry of its own. -/
theorem settles_fallback_iff {amounts : List (String × ℚ)} (hkeys : (amounts.map Prod.fst).Nodup)
    (interrupted : Prop) [Decidable interrupted] (thrown : Option Exception) :
    let sent := amounts.filter fun amount => (wallet.sendToAddress amount.1 amount.2).error.isNone
    let transfers := sent.map fun amount => (⟨amount.1, amount.2⟩ : Transfer)
    let successes := successBalances wallet pool amounts
    let outcome : PayoutOutcome := if interrupted then ⟨transfers, [], db, thrown⟩
      else if successes.length = 0 then ⟨transfers, [], db, none⟩
      else .afterPersist transfers successes db
        (persistPaymentsByBalance pool failure successes db)
    Settles outcome.persisted outcome.transfers ↔
      ∀ amount ∈ amounts, (wallet.sendToAddress amount.1 amount.2).error = none →
        amount.2 = 0 ∨ ¬interrupted ∧
          isNullOrEmpty (wallet.sendToAddress amount.1 amount.2).response = false ∧
            Commits failure := by
  intro sent transfers successes outcome
  have htransfers : outcome.transfers = transfers := by
    simp only [outcome]
    split
    · rfl
    · split
      · rfl
      · exact PayoutOutcome.transfers_afterPersist _ _ _ _
  have hpersisted : outcome.persisted =
      if ¬interrupted ∧ Commits failure then successes else [] := by
    simp only [outcome]
    by_cases hinterrupted : interrupted
    · simp [hinterrupted]
    · by_cases hempty : successes.length = 0
      · simp [hinterrupted, List.length_eq_zero_iff.mp hempty]
      · have hne : successes ≠ [] := fun h => hempty (List.length_eq_zero_iff.mpr h)
        rw [if_neg hinterrupted, if_neg hempty, persisted_persistPaymentsByBalance hne]
        simp [hinterrupted]
  rw [htransfers, hpersisted, Settles, List.forall_mem_map]
  simp only [sent, List.mem_filter, Option.isNone_iff_eq_none, and_imp]
  apply forall₃_congr
  intro amount hmem haccepted
  by_cases hcommitted : ¬interrupted ∧ Commits failure
  · have hpaid : ∀ amount entry, ((sendToAddress wallet amount).map fun txId =>
        ((⟨pool.id, amount.1, amount.2⟩, some txId) : Balance × Option String)) = some entry →
          entry.1.address = amount.1 := by
      intro amount entry h
      obtain ⟨txId, _, rfl⟩ := Option.map_eq_some_iff.mp h
      rfl
    have hreset := resetAmount_filterMap hkeys hpaid hmem
    rw [if_pos hcommitted]
    refine (Eq.congr_left hreset).trans ?_
    rw [sendToAddress, haccepted]
    cases hempty : isNullOrEmpty (wallet.sendToAddress amount.1 amount.2).response with
    | true => simp [eq_comm]
    | false =>
        cases hresponse : (wallet.sendToAddress amount.1 amount.2).response with
        | none => simp [hresponse, isNullOrEmpty] at hempty
        | some txId => simp [hcommitted]
  · rw [if_neg hcommitted]
    simp only [resetAmount, List.filter_nil, List.map_nil, List.sum_nil]
    constructor
    · exact fun h => Or.inl h.symm
    · rintro (h | h)
      · exact h.symm
      · exact absurd ⟨h.1, h.2.2⟩ hcommitted

/-- Without a number of places, nothing comes out of the rounding. -/
theorem payableAmounts_eq_nil {round : ℚ → Except Exception ℚ} (hround : ∀ x y, round x ≠ .ok y)
    {amounts : List (String × ℚ)} (h : payableAmounts round balances = .ok amounts) :
    amounts = [] := by
  induction balances generalizing amounts with
  | nil =>
      cases h
      rfl
  | cons balance balances ih =>
      rw [payableAmounts] at h
      split at h
      · split at h
        · rename_i hamount _
          exact absurd hamount (hround _ _)
        · cases h
        · cases h
      · exact ih h

theorem settles_payout_iff (haddresses : (balances.map Balance.address).Nodup) :
    Settles (payout config wallet pool cancelledAfter failure balances db).persisted
        (payout config wallet pool cancelledAfter failure balances db).transfers ↔
      IsSettled config wallet cancelledAfter failure balances := by
  by_cases hplaces : 0 ≤ config.payoutDecimalPlaces ∧ config.payoutDecimalPlaces ≤ 28
  · have hkeys : ((roundedAmounts config.payoutDecimalPlaces balances).map Prod.fst).Nodup := by
      rw [roundedAmounts, List.map_map]
      exact haddresses.sublist (List.filter_sublist.map Balance.address)
    have hiff : IsSettled config wallet cancelledAfter failure balances ↔
        (config.hasBrokenSendMany = false → SendManySettled config wallet failure balances) ∧
        (config.hasBrokenSendMany = true →
          SendToAddressSettled config wallet cancelledAfter failure balances) :=
      ⟨fun h => h hplaces.1 hplaces.2, fun h _ _ => h⟩
    rw [hiff, payout, payableAmounts_mathRound hplaces haddresses]
    simp only
    split
    · rename_i hempty
      rw [List.length_eq_zero_iff] at hempty
      refine iff_of_true (settles_nothing _) ⟨fun _ txId _ => ?_, fun _ amount hmem => ?_⟩
      · rw [roundedAmounts, List.map_eq_nil_iff] at hempty
        rw [hempty]
        exact fun balance hmem => (List.not_mem_nil hmem).elim
      · rw [hempty] at hmem
        cases (taken_sublist _ _).subset hmem
    · split
      · rename_i hbroken
        simp only [hbroken, forall_const, reduceCtorEq, false_implies, and_true]
        rw [SendManySettled]
        split
        · rename_i locked hcall
          refine iff_of_true (settles_nothing _) fun txId h => ?_
          rw [hcall] at h
          cases h
        · rename_i txId hcall
          rw [persisted_persistPayments, PayoutOutcome.transfers_afterPersist, hcall]
          simp only [Except.ok.injEq, forall_eq']
          rw [roundedAmounts, List.map_map]
          exact settles_transaction_iff haddresses (List.filter_subset_self _) _ txId _
      · rename_i hbroken
        have hbroken : config.hasBrokenSendMany = true := by simpa using hbroken
        simp only [hbroken, forall_const, reduceCtorEq, false_implies, true_and]
        refine (settles_fallback_iff
          (hkeys.sublist ((taken_sublist _ _).map Prod.fst)) _ _).trans ?_
        simp only [Option.not_isSome_iff_eq_none]
        rfl
  · refine iff_of_true ?_ fun hnonneg hle => absurd ⟨hnonneg, hle⟩ hplaces
    have hround : ∀ x y, mathRound config.payoutDecimalPlaces x ≠ .ok y := by
      intro x y
      rw [mathRound, if_pos (by omega)]
      intro h
      cases h
    rw [payout]
    cases hamounts : payableAmounts (mathRound config.payoutDecimalPlaces) balances with
    | error e => exact settles_nothing _
    | ok amounts =>
        rw [payableAmounts_eq_nil hround hamounts]
        exact settles_nothing _

end BitcoinPayoutHandler

end Miningcore
