import Miningcore.Blockchain.Bitcoin.BitcoinPayoutHandler
import Miningcore.Blockchain.Ergo.ErgoPayoutHandler

/-!
# The amounts of a payment

The batch payouts send rounded amounts but persist the balances they were given.
The fallback that pays balances one by one persists what it has sent.
-/

namespace Miningcore

open Foundation PayoutHandlerBase

section Amounts

variable {pool : PoolConfig} {db : Database} {balances : List Balance}

/-- Every payable balance is sent without rounding. -/
def ExactlyPayable (places : ℤ) (balances : List Balance) : Prop :=
  ∀ balance ∈ balances, 0 < balance.amount → HasDecimals places.toNat balance.amount

/-- What a batch sends when every amount arrives as it was rounded. -/
def batchTransfers (places : ℤ) (balances : List Balance) : List Transfer :=
  (balances.filter fun balance => 0 < balance.amount).map fun balance =>
    ⟨balance.address, roundDecimals places.toNat balance.amount⟩

/-- The amounts of a batch agree exactly when nothing was rounded. -/
theorem amountsAgree_batch_iff (haddresses : (balances.map Balance.address).Nodup) {places : ℤ}
    {txId : Option String} (htxId : isNullOrEmpty txId = false) (thrown : Option Exception) :
    AmountsAgree pool db ⟨batchTransfers places balances, balances.map (·, txId),
        persistEntries pool db (balances.map (·, txId)), thrown⟩ ↔
      ExactlyPayable places balances := by
  have hentries : ((balances.map (·, txId)).map fun entry => entry.1.address).Nodup := by
    rwa [List.map_map]
  have hagrees : ∀ balance ∈ balances,
      AgreesAt pool db (persistEntries pool db (balances.map (·, txId)))
          ⟨balance.address, roundDecimals places.toNat balance.amount⟩ ↔
        HasDecimals places.toNat balance.amount := by
    intro balance hmem
    have hentry : (balance, txId) ∈ balances.map (·, txId) := List.mem_map_of_mem hmem
    rw [agreesAt_iff hentries hentry htxId rfl, roundDecimals_eq_iff]
  constructor
  · intro h balance hmem hpos
    apply (hagrees balance hmem).mp
    apply h
    · exact List.mem_map_of_mem (List.mem_filter.mpr ⟨hmem, decide_eq_true hpos⟩)
    · exact ⟨(balance, txId), List.mem_map_of_mem hmem, rfl⟩
  · intro h transfer htransfer _
    obtain ⟨balance, hbalance, rfl⟩ := List.mem_map.mp htransfer
    obtain ⟨hmem, hpos⟩ := List.mem_filter.mp hbalance
    exact (hagrees balance hmem).mpr (h balance hmem (of_decide_eq_true hpos))

theorem afterPersist_of_persisted {transfers : List Transfer}
    {entries : List (Balance × Option String)} {result : Except Exception Database}
    (h : (PayoutOutcome.afterPersist transfers entries db result).persisted ≠ []) :
    ∃ db', result = .ok db' ∧
      PayoutOutcome.afterPersist transfers entries db result = ⟨transfers, entries, db', none⟩ := by
  cases result with
  | error e => exact absurd rfl h
  | ok db' => exact ⟨db', rfl, rfl⟩

/-! ## Bitcoin -/

namespace BitcoinPayoutHandler

variable {config : BitcoinPayoutConfig} {wallet : BitcoinWallet} {cancelledAfter : Option Nat}
  {failure : Failures}

/-- What is left of a payout that has persisted something. -/
theorem payout_of_persisted
    (h : (payout config wallet pool cancelledAfter failure balances db).persisted ≠ []) :
    ∃ amounts, payableAmounts (mathRound config.payoutDecimalPlaces) balances = .ok amounts ∧
      ((config.hasBrokenSendMany = false ∧ ∃ txId, isNullOrEmpty txId = false ∧
          payout config wallet pool cancelledAfter failure balances db =
            ⟨batchTransfers config.payoutDecimalPlaces balances, balances.map (·, txId),
              persistEntries pool db (balances.map (·, txId)), none⟩) ∨
        (config.hasBrokenSendMany = true ∧
          payout config wallet pool cancelledAfter failure balances db =
            ⟨(amounts.filter fun amount =>
                (wallet.sendToAddress amount.1 amount.2).error.isNone).map
                  fun amount => ⟨amount.1, amount.2⟩,
              successBalances wallet pool amounts,
              persistEntries pool db (successBalances wallet pool amounts), none⟩)) := by
  rw [payout] at h ⊢
  cases hamounts : payableAmounts (mathRound config.payoutDecimalPlaces) balances with
  | error e => simp [hamounts, PayoutOutcome.nothingSent] at h
  | ok amounts =>
      refine ⟨amounts, rfl, ?_⟩
      simp only [hamounts] at h ⊢
      have hempty : amounts.length ≠ 0 := by
        intro hempty
        simp [hempty, PayoutOutcome.nothingSent] at h
      rw [if_neg hempty] at h ⊢
      cases hbroken : config.hasBrokenSendMany with
      | false =>
          rw [if_pos hbroken] at h
          rw [if_pos rfl]
          refine Or.inl ⟨rfl, ?_⟩
          cases hcall : callUnlocked config.walletPassword wallet.sendMany
              wallet.walletPassphrase with
          | error locked => simp [hcall, PayoutOutcome.nothingSent] at h
          | ok txId =>
              simp only [hcall] at h ⊢
              obtain ⟨db', hok, heq⟩ := afterPersist_of_persisted h
              obtain ⟨htxId, _, rfl⟩ := persistPayments_eq_ok_iff.mp hok
              refine ⟨txId, htxId, heq.trans ?_⟩
              rw [batchTransfers, (payableAmounts_ok eq_roundDecimals_of_mathRound hamounts).1,
                List.map_map]
              rfl
      | true =>
          rw [if_neg (by simp [hbroken])] at h
          rw [if_neg (by simp)]
          refine Or.inr ⟨rfl, ?_⟩
          cases cancelledAfter with
          | some k => simp at h
          | none =>
              simp only [taken, Option.isSome_none, Bool.false_eq_true, if_false] at h ⊢
              by_cases hnone : (successBalances wallet pool amounts).length = 0
              · simp [hnone] at h
              · simp only [hnone, if_false] at h ⊢
                obtain ⟨db', hok, heq⟩ := afterPersist_of_persisted h
                obtain ⟨_, _, rfl⟩ := persistPaymentsByBalance_eq_ok_iff.mp hok
                exact heq

theorem mem_successBalances {amounts : List (String × ℚ)} {entry : Balance × Option String}
    (h : entry ∈ successBalances wallet pool amounts) :
    ∃ amount ∈ amounts, entry.1.address = amount.1 ∧ entry.1.amount = amount.2 ∧
      isNullOrEmpty entry.2 = false := by
  obtain ⟨amount, hmem, hentry⟩ := List.mem_filterMap.mp h
  obtain ⟨txId, hsend, rfl⟩ := Option.map_eq_some_iff.mp hentry
  refine ⟨amount, hmem, rfl, rfl, ?_⟩
  rw [sendToAddress] at hsend
  split at hsend
  · cases hsend
  · rename_i hok
    rw [← hsend]
    simpa using fun hempty => hok (Or.inr hempty)

/-- The fallback persists what it has sent. -/
theorem amountsAgree_fallback {amounts : List (String × ℚ)} (hkeys : (amounts.map Prod.fst).Nodup)
    {sent : List (String × ℚ)} (hsent : sent ⊆ amounts) :
    AmountsAgree pool db ⟨sent.map fun amount => ⟨amount.1, amount.2⟩,
      successBalances wallet pool amounts,
      persistEntries pool db (successBalances wallet pool amounts), none⟩ := by
  have hsublist : ((successBalances wallet pool amounts).map fun entry => entry.1.address).Sublist
      (amounts.map Prod.fst) := by
    clear hkeys hsent
    induction amounts with
    | nil => exact List.Sublist.refl _
    | cons amount amounts ih =>
        rw [successBalances] at ih ⊢
        cases hsend : sendToAddress wallet amount with
        | none => simpa [hsend] using ih.cons amount.1
        | some txId => simpa [hsend] using ih.cons_cons amount.1
  rintro transfer htransfer ⟨entry, hentry, haddress⟩
  obtain ⟨amount, hamount, rfl⟩ := List.mem_map.mp htransfer
  obtain ⟨paid, hpaid, hkey, hvalue, hconfirmation⟩ := mem_successBalances hentry
  have heq : paid = amount :=
    List.inj_on_of_nodup_map hkeys hpaid (hsent hamount) (hkey.symm.trans haddress)
  rw [agreesAt_iff (hkeys.sublist hsublist) hentry hconfirmation haddress, hvalue, heq]

end BitcoinPayoutHandler

/-! ## Ergo -/

namespace ErgoPayoutHandler

variable {wallet : ErgoWallet} {failure : Failures}

/-- A cast to nanoergs keeps an amount that has no more than nine places. -/
theorem toLong_of_hasDecimals {x : ℚ} {value : ℤ} (hx : HasDecimals 9 x)
    (h : toLong (x * smallestUnit) = .ok value) : value / smallestUnit = x := by
  obtain ⟨n, hn⟩ := hx
  have hunit : x * smallestUnit = n := hn
  have hcast : (if (0 : ℚ) ≤ n then ⌊(n : ℚ)⌋ else ⌈(n : ℚ)⌉) = n := by
    split
    · exact Int.floor_intCast n
    · exact Int.ceil_intCast n
  rw [toLong, hunit] at h
  simp only [hcast] at h
  split at h
  · cases h
    rw [← hunit]
    exact mul_div_cancel_right₀ x (by norm_num [smallestUnit])
  · cases h

/-- The requests carry the rounded amounts. -/
theorem transfers_of_requests {amounts : List (String × ℚ)} {values : List (String × ℤ)}
    (hdecimals : ∀ amount ∈ amounts, HasDecimals 9 amount.2)
    (h : requests amounts = .ok values) :
    values.map (fun value => (⟨value.1, value.2 / smallestUnit⟩ : Transfer)) =
      amounts.map fun amount => ⟨amount.1, amount.2⟩ := by
  induction amounts generalizing values with
  | nil =>
      cases h
      rfl
  | cons amount amounts ih =>
      rw [requests_cons] at h
      split at h
      · rename_i value rest hvalue hrest
        cases h
        have hfirst := toLong_of_hasDecimals (hdecimals amount List.mem_cons_self) hvalue
        rw [List.map_cons, List.map_cons, hfirst,
          ih (fun a ha => hdecimals a (List.mem_cons_of_mem _ ha)) hrest]
      · cases h
      · cases h

/-- Either nothing is persisted, or the whole batch is. -/
theorem trySend_eq (wallet : ErgoWallet) (pool : PoolConfig) (failure : Failures)
    {amounts : List (String × ℚ)}
    (hdecimals : ∀ amount ∈ amounts, HasDecimals 9 amount.2) :
    (trySend wallet pool failure amounts balances db).persisted = [] ∨
      ∃ txId, isNullOrEmpty txId = false ∧ trySend wallet pool failure amounts balances db =
        ⟨amounts.map fun amount => ⟨amount.1, amount.2⟩, balances.map (·, txId),
          persistEntries pool db (balances.map (·, txId)), none⟩ := by
  rw [trySend]
  split
  · exact Or.inl rfl
  · split
    · exact Or.inl rfl
    · split
      · exact Or.inl rfl
      · exact Or.inl rfl
      · split
        · exact Or.inl rfl
        · split
          · exact Or.inl rfl
          · rename_i values hrequests
            split
            · exact Or.inl rfl
            · rename_i txId _
              rw [transfers_of_requests hdecimals hrequests]
              cases hpersist : persistPayments pool failure balances txId db with
              | error e =>
                  left
                  split <;> rfl
              | ok db' =>
                  obtain ⟨htxId, _, rfl⟩ := persistPayments_eq_ok_iff.mp hpersist
                  exact Or.inr ⟨txId, htxId, by simp [htxId, PayoutOutcome.afterPersist]⟩

theorem payout_of_persisted
    (h : (payout wallet pool failure balances db).persisted ≠ []) :
    ∃ txId thrown, isNullOrEmpty txId = false ∧ payout wallet pool failure balances db =
      ⟨batchTransfers payoutDecimalPlaces balances, balances.map (·, txId),
        persistEntries pool db (balances.map (·, txId)), thrown⟩ := by
  rw [payout] at h ⊢
  cases hamounts : payableAmounts (mathRound payoutDecimalPlaces) balances with
  | error e => simp [hamounts, PayoutOutcome.nothingSent] at h
  | ok amounts =>
      have heq := (payableAmounts_ok eq_roundDecimals_of_mathRound hamounts).1
      have hdecimals : ∀ amount ∈ amounts, HasDecimals 9 amount.2 := by
        intro amount hmem
        rw [heq] at hmem
        obtain ⟨balance, _, rfl⟩ := List.mem_map.mp hmem
        exact (hasDecimals_roundDecimals 4 balance.amount).mono (by norm_num)
      simp only [hamounts] at h ⊢
      split at h
      · exact absurd rfl h
      · rename_i hempty
        rw [if_neg hempty]
        cases trySend_eq wallet pool failure hdecimals with
        | inl hnone => exact absurd hnone h
        | inr hsent =>
            obtain ⟨txId, htxId, hsent⟩ := hsent
            refine ⟨txId, wallet.lock, htxId, ?_⟩
            rw [hsent, batchTransfers]
            simp only [heq, List.map_map, Option.or_none]
            rfl

end ErgoPayoutHandler

/-- The three amounts of every successful payment agree: for Bitcoin with the fallback or when no
balance is rounded, for Ergo when no balance has more than four places. -/
theorem amountsAgree_iff (pool : PoolConfig) (db : Database) (balances : List Balance)
    (haddresses : (balances.map Balance.address).Nodup) :
    (∀ config wallet cancelledAfter failure,
      (BitcoinPayoutHandler.payout config wallet pool cancelledAfter failure balances
        db).persisted ≠ [] →
      (AmountsAgree pool db (BitcoinPayoutHandler.payout config wallet pool cancelledAfter failure
          balances db) ↔
        config.hasBrokenSendMany = true ∨
          ExactlyPayable config.payoutDecimalPlaces balances)) ∧
    (∀ wallet failure,
      (ErgoPayoutHandler.payout wallet pool failure balances db).persisted ≠ [] →
      (AmountsAgree pool db (ErgoPayoutHandler.payout wallet pool failure balances db) ↔
        ExactlyPayable 4 balances)) := by
  constructor
  · intro config wallet cancelledAfter failure h
    obtain ⟨amounts, hamounts, hcase⟩ := BitcoinPayoutHandler.payout_of_persisted h
    cases hcase with
    | inl hbatch =>
        obtain ⟨hbroken, txId, htxId, heq⟩ := hbatch
        rw [heq, amountsAgree_batch_iff haddresses htxId, hbroken]
        simp
    | inr hfallback =>
        obtain ⟨hbroken, heq⟩ := hfallback
        rw [heq]
        refine iff_of_true ?_ (Or.inl hbroken)
        apply BitcoinPayoutHandler.amountsAgree_fallback
          (payableAmounts_ok eq_roundDecimals_of_mathRound hamounts).2
        exact List.filter_sublist.subset
  · intro wallet failure h
    obtain ⟨txId, thrown, htxId, heq⟩ := ErgoPayoutHandler.payout_of_persisted h
    rw [heq]
    exact amountsAgree_batch_iff haddresses htxId thrown

end Amounts

/-! ## A balance with five places -/

namespace RoundedBatch

def pool : PoolConfig := { id := "pool", address := "wallet" }

def bitcoinWallet : BitcoinWallet where
  sendMany _ := ⟨some "tx", none⟩
  walletPassphrase := ⟨none, none⟩
  sendToAddress _ _ := ⟨some "tx", none⟩

def ergoWallet : ErgoWallet where
  isInitialized := true
  isUnlocked := true
  walletBalance := .ok 10000000000
  generateAndSend _ := .ok (some "tx")

/-- Every attempt at the transaction succeeds. -/
def noFailure : Failures := fun _ => none

theorem persisted_bitcoin (amount : ℚ) (h : 0 < amount) :
    (BitcoinPayoutHandler.payout {} bitcoinWallet pool none noFailure [⟨"pool", "a", amount⟩]
      {}).persisted ≠ [] := by
  simp [BitcoinPayoutHandler.payout, payableAmounts, mathRound, h, callUnlocked, bitcoinWallet,
    persistPayments, isNullOrEmpty, executeWithRetries, noFailure, retryCount,
    PayoutOutcome.afterPersist]

theorem not_exactlyPayable : ¬ExactlyPayable 4 [⟨"pool", "a", 1.23456⟩] := by
  intro h
  obtain ⟨n, hn⟩ := h _ (List.mem_singleton_self _) (by norm_num)
  have hn : (1.23456 : ℚ) * 10 ^ 4 = n := hn
  have hfive : ((5 * n : ℤ) : ℚ) = ((61728 : ℤ) : ℚ) := by
    push_cast
    rw [← hn]
    norm_num
  have := Int.cast_inj.mp hfive
  omega

/-- A balance of 1.23456 is paid with 1.2346. -/
theorem not_amountsAgree : ¬AmountsAgree pool {}
    (BitcoinPayoutHandler.payout {} bitcoinWallet pool none noFailure
      [⟨"pool", "a", 1.23456⟩] {}) := by
  obtain ⟨amounts, _, hcase⟩ :=
    BitcoinPayoutHandler.payout_of_persisted (persisted_bitcoin 1.23456 (by norm_num))
  cases hcase with
  | inl hbatch =>
      obtain ⟨_, txId, htxId, heq⟩ := hbatch
      rw [heq, amountsAgree_batch_iff (by simp) htxId]
      exact not_exactlyPayable
  | inr hfallback => exact absurd hfallback.1 (by decide)

theorem exactlyPayable_one : ExactlyPayable 4 [⟨"pool", "a", 1⟩] := by
  intro balance hmem _
  rw [List.mem_singleton.mp hmem]
  have hdecimals : HasDecimals 4 1 := ⟨10 ^ 4, by norm_num⟩
  exact hdecimals

theorem persisted_ergo :
    (ErgoPayoutHandler.payout ergoWallet pool noFailure [⟨"pool", "a", 1⟩] {}).persisted ≠ [] := by
  have hround : roundDecimals 4 1 = 1 := (roundDecimals_eq_iff 4 1).mpr ⟨10 ^ 4, by norm_num⟩
  have hlong : ErgoPayoutHandler.toLong ErgoPayoutHandler.smallestUnit = .ok (10 ^ 9) := by
    have hfloor : ⌊(10 ^ 9 : ℚ)⌋ = 10 ^ 9 := by norm_num
    rw [ErgoPayoutHandler.toLong, ErgoPayoutHandler.smallestUnit, if_pos (by norm_num), hfloor]
    rfl
  have hbalance : ¬(10000000000 : ℚ) / ErgoPayoutHandler.smallestUnit < 1 := by
    norm_num [ErgoPayoutHandler.smallestUnit]
  simp [ErgoPayoutHandler.payout, ErgoPayoutHandler.payoutDecimalPlaces, payableAmounts, mathRound,
    hround, ErgoPayoutHandler.trySend, ergoWallet, hbalance, ErgoPayoutHandler.requests, hlong,
    persistPayments, isNullOrEmpty, executeWithRetries, noFailure, retryCount,
    PayoutOutcome.afterPersist]

/-- A balance of 1 is paid as it is. -/
theorem amountsAgree_one :
    AmountsAgree pool {} (BitcoinPayoutHandler.payout {} bitcoinWallet pool none noFailure
      [⟨"pool", "a", 1⟩] {}) ∧
    AmountsAgree pool {} (ErgoPayoutHandler.payout ergoWallet pool noFailure
      [⟨"pool", "a", 1⟩] {}) :=
  have hagrees := amountsAgree_iff pool {} [⟨"pool", "a", 1⟩] (by simp)
  ⟨(hagrees.1 _ _ _ _ (persisted_bitcoin 1 (by norm_num))).mpr (Or.inr exactlyPayable_one),
    (hagrees.2 _ _ persisted_ergo).mpr exactlyPayable_one⟩

end RoundedBatch

end Miningcore
