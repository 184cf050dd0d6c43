import Miningcore.Payments.Transfers
import Miningcore.Blockchain.Warthog.WarthogPayoutHandler
import Miningcore.Blockchain.Pearl.PearlPayoutHandler
import Miningcore.Blockchain.Kaspa.KaspaPayoutHandler

/-!
# Accepted transfers

Handlers that send first and record later. A transfer the daemon has accepted is
forgotten when the call ends before it is persisted.
-/

namespace Miningcore

open Foundation PayoutHandlerBase

/-- Each transfer has its entry. -/
def Covers (persisted : List (Balance × Option String)) (transfers : List Transfer) : Prop :=
  ∀ transfer ∈ transfers, ∃ entry ∈ persisted, entry.1.address = transfer.address

/-- Every transfer the daemon has accepted was persisted by the end of the call. -/
def NoneForgotten (outcome : PayoutOutcome) : Prop := Covers outcome.persisted outcome.transfers

instance (persisted : List (Balance × Option String)) (transfers : List Transfer) :
    Decidable (Covers persisted transfers) :=
  inferInstanceAs (Decidable (∀ transfer ∈ transfers, ∃ entry ∈ persisted, _ = _))

instance (outcome : PayoutOutcome) : Decidable (NoneForgotten outcome) :=
  inferInstanceAs (Decidable (Covers _ _))

theorem covers_nil_iff {transfers : List Transfer} : Covers [] transfers ↔ transfers = [] := by
  constructor
  · intro h
    apply List.eq_nil_iff_forall_not_mem.mpr
    intro transfer hmem
    obtain ⟨entry, hentry, _⟩ := h transfer hmem
    cases hentry
  · rintro rfl transfer hmem
    cases hmem

/-- Entries and transfers for other addresses make no difference. -/
theorem covers_append_iff {keys : List String}
    {persisted persisted' : List (Balance × Option String)}
    {transfers transfers' : List Transfer}
    (hpersisted : ∀ entry ∈ persisted, entry.1.address ∈ keys)
    (htransfers : ∀ transfer ∈ transfers, transfer.address ∈ keys)
    (hpersisted' : ∀ entry ∈ persisted', entry.1.address ∉ keys)
    (htransfers' : ∀ transfer ∈ transfers', transfer.address ∉ keys) :
    Covers (persisted ++ persisted') (transfers ++ transfers') ↔
      Covers persisted transfers ∧ Covers persisted' transfers' := by
  constructor
  · intro h
    constructor
    · intro transfer hmem
      obtain ⟨entry, hentry, heq⟩ := h transfer (List.mem_append_left _ hmem)
      cases List.mem_append.mp hentry with
      | inl hleft => exact ⟨entry, hleft, heq⟩
      | inr hright => exact absurd (heq ▸ htransfers transfer hmem) (hpersisted' entry hright)
    · intro transfer hmem
      obtain ⟨entry, hentry, heq⟩ := h transfer (List.mem_append_right _ hmem)
      cases List.mem_append.mp hentry with
      | inl hleft => exact absurd (heq ▸ hpersisted entry hleft) (htransfers' transfer hmem)
      | inr hright => exact ⟨entry, hright, heq⟩
  · rintro ⟨hleft, hright⟩ transfer hmem
    cases List.mem_append.mp hmem with
    | inl hmem =>
        obtain ⟨entry, hentry, heq⟩ := hleft transfer hmem
        exact ⟨entry, List.mem_append_left _ hentry, heq⟩
    | inr hmem =>
        obtain ⟨entry, hentry, heq⟩ := hright transfer hmem
        exact ⟨entry, List.mem_append_right _ hentry, heq⟩

/-! ## Payments one by one -/

section OneByOne

variable {α : Type} {items : List α} {key : α → String} {sent : α → Option Transfer}
  {paid : α → Option (Balance × Option String)}

theorem covers_filterMap_iff (hkeys : (items.map key).Nodup)
    (hsent : ∀ x transfer, sent x = some transfer → transfer.address = key x)
    (hpaid : ∀ x entry, paid x = some entry → entry.1.address = key x) :
    Covers (items.filterMap paid) (items.filterMap sent) ↔
      ∀ x ∈ items, (sent x).isSome → (paid x).isSome := by
  constructor
  · intro h x hx hsome
    obtain ⟨transfer, htransfer⟩ := Option.isSome_iff_exists.mp hsome
    obtain ⟨entry, hentry, heq⟩ := h transfer (List.mem_filterMap.mpr ⟨x, hx, htransfer⟩)
    obtain ⟨y, hy, hpaidy⟩ := List.mem_filterMap.mp hentry
    have hkey : key y = key x := by
      rw [← hpaid y entry hpaidy, heq, hsent x transfer htransfer]
    rw [← List.inj_on_of_nodup_map hkeys hy hx hkey, hpaidy]
    rfl
  · intro h transfer hmem
    obtain ⟨x, hx, htransfer⟩ := List.mem_filterMap.mp hmem
    obtain ⟨entry, hentry⟩ := Option.isSome_iff_exists.mp (h x hx (by rw [htransfer]; rfl))
    refine ⟨entry, List.mem_filterMap.mpr ⟨x, hx, hentry⟩, ?_⟩
    rw [hpaid x entry hentry, hsent x transfer htransfer]

theorem covers_nil_filterMap_iff :
    Covers [] (items.filterMap sent) ↔ ∀ x ∈ items, ¬(sent x).isSome := by
  simp only [covers_nil_iff, List.filterMap_eq_nil_iff, Option.not_isSome_iff_eq_none]

/-- The end of a loop that is followed by one transaction for all its successes: what was sent is
remembered when the loop was not interrupted, the success is known and the transaction commits. -/
theorem noneForgotten_oneByOne_iff {pool : PoolConfig} {failure : Failures} {db : Database}
    (interrupted : Prop) [Decidable interrupted] (thrown : Option Exception)
    (hkeys : (items.map key).Nodup)
    (hsent : ∀ x transfer, sent x = some transfer → transfer.address = key x)
    (hpaid : ∀ x entry, paid x = some entry → entry.1.address = key x) :
    NoneForgotten (if interrupted then ⟨items.filterMap sent, [], db, thrown⟩
        else if (items.filterMap paid).length = 0 then ⟨items.filterMap sent, [], db, none⟩
        else .afterPersist (items.filterMap sent) (items.filterMap paid) db
          (persistPaymentsByBalance pool failure (items.filterMap paid) db)) ↔
      ∀ x ∈ items, (sent x).isSome → ¬interrupted ∧ (paid x).isSome ∧ Commits failure := by
  have hnil : ∀ {P : Prop}, ¬P → (Covers [] (items.filterMap sent) ↔
      ∀ x ∈ items, (sent x).isSome → P) := by
    intro P hP
    rw [covers_nil_filterMap_iff]
    exact forall₂_congr fun x _ => ⟨fun h hsome => absurd hsome h, fun h hsome => hP (h hsome)⟩
  split
  · rename_i hinterrupted
    exact (hnil not_false).trans (forall₃_congr fun x _ _ => by simp [hinterrupted])
  · rename_i hinterrupted
    have hall := covers_filterMap_iff hkeys hsent hpaid
    simp only [hinterrupted, not_false_eq_true, true_and]
    split
    · rename_i hempty
      rw [List.length_eq_zero_iff] at hempty
      have hnone : ∀ x ∈ items, ¬(paid x).isSome := by
        rw [List.filterMap_eq_nil_iff] at hempty
        intro x hx
        rw [hempty x hx]
        exact Bool.false_ne_true
      refine (hnil not_false).trans (forall₃_congr fun x hx _ => ?_)
      simp [hnone x hx]
    · rename_i hsome
      by_cases hcommits : Commits failure
      · have hok : persistPaymentsByBalance pool failure (items.filterMap paid) db =
            .ok (persistEntries pool db (items.filterMap paid)) :=
          persistPaymentsByBalance_eq_ok_iff.mpr
            ⟨fun hnil => hsome (List.length_eq_zero_iff.mpr hnil), hcommits, rfl⟩
        rw [hok]
        simp only [hcommits, and_true]
        exact hall
      · simp only [hcommits, and_false]
        cases hpersist : persistPaymentsByBalance pool failure (items.filterMap paid) db with
        | ok db' => exact absurd (persistPaymentsByBalance_eq_ok_iff.mp hpersist).2.1 hcommits
        | error e => exact hnil not_false

/-- Such an end writes what was persisted. -/
theorem writesPersisted_oneByOne {pool : PoolConfig} {failure : Failures} {db : Database}
    (interrupted : Prop) [Decidable interrupted] (thrown : Option Exception)
    (transfers : List Transfer) (successes : List (Balance × Option String)) :
    WritesPersisted pool db (if interrupted then ⟨transfers, [], db, thrown⟩
      else if successes.length = 0 then ⟨transfers, [], db, none⟩
      else .afterPersist transfers successes db
        (persistPaymentsByBalance pool failure successes db)) := by
  split
  · rfl
  · split
    · rfl
    · exact writesPersisted_persistPaymentsByBalance failure transfers successes

end OneByOne

/-- The balances above zero, by address. -/
def payable (balances : List Balance) : List (String × ℚ) :=
  (balances.filter fun balance => 0 < balance.amount).map fun balance =>
    (balance.address, balance.amount)

section Payable

variable {balances : List Balance}

theorem nodup_payable (haddresses : (balances.map Balance.address).Nodup) :
    ((payable balances).map Prod.fst).Nodup := by
  rw [payable, List.map_map]
  exact haddresses.sublist (List.filter_sublist.map Balance.address)

theorem payableAmounts_payable (haddresses : (balances.map Balance.address).Nodup) :
    payableAmounts .ok balances = .ok (payable balances) :=
  payableAmounts_eq_ok (fun _ => rfl) haddresses

theorem pos_of_mem_payable {amount : String × ℚ} (h : amount ∈ payable balances) :
    0 < amount.2 := by
  obtain ⟨balance, hmem, rfl⟩ := List.mem_map.mp h
  exact of_decide_eq_true (List.mem_filter.mp hmem).2

end Payable

theorem noneForgotten_nothingSent (db : Database) (thrown : Option Exception) :
    NoneForgotten (.nothingSent db thrown) := covers_nil_iff.mpr rfl

section Handlers

variable {pool : PoolConfig} {failure : Failures} {balances : List Balance} {db : Database}

/-! ## Warthog -/

/-- The worker is told the transaction id. -/
def WarthogSend.IsReported (send : WarthogSend) : Prop :=
  ∃ response, send.reply = .ok response ∧ response.error = none ∧
    isNullOrEmpty response.txHash = false

namespace WarthogPayoutHandler

variable {config : WarthogPayoutConfig} {send : String × ℚ → WarthogSend}
  {validation : Option Exception} {walletBalance : Except Exception ℚ}
  {cancelledAfter : Option Nat}

/-- The wallet satisfies the payments. -/
def IsFunded (validation : Option Exception) (walletBalance : Except Exception ℚ)
    (balances : List Balance) : Prop :=
  validation = none ∧ ∃ available, walletBalance = .ok available ∧
    ((payable balances).map Prod.snd).sum ≤ available / smallestUnit

/-- No worker with an accepted transaction is interrupted, left without its id, or followed by a
database that fails. -/
def Remembers (send : String × ℚ → WarthogSend) (validation : Option Exception)
    (walletBalance : Except Exception ℚ) (cancelledAfter : Option Nat) (failure : Failures)
    (balances : List Balance) : Prop :=
  IsFunded validation walletBalance balances →
    ∀ amount ∈ taken cancelledAfter (payable balances), (send amount).accepted = true →
      cancelledAfter = none ∧ (send amount).IsReported ∧ Commits failure

theorem isSome_transfer {amount : String × ℚ} :
    (transfer config send amount).isSome ↔ (send amount).accepted = true := by
  rw [transfer]
  split <;> simp [*]

theorem isSome_successBalance {amount : String × ℚ} :
    (successBalance send pool amount).isSome ↔ (send amount).IsReported := by
  rw [successBalance, Option.isSome_map, workerTxId, WarthogSend.IsReported]
  cases (send amount).reply with
  | error e => simp
  | ok response =>
      cases herror : response.error <;> cases htxHash : response.txHash <;>
        simp [herror, htxHash, isNullOrEmpty]

theorem noneForgotten_payout_iff (haddresses : (balances.map Balance.address).Nodup) :
    NoneForgotten (payout config send pool validation walletBalance cancelledAfter failure balances
        db) ↔
      Remembers send validation walletBalance cancelledAfter failure balances := by
  rw [payout, payableAmounts_payable haddresses, Remembers]
  simp only
  split
  · rename_i hempty
    rw [List.length_eq_zero_iff] at hempty
    refine iff_of_true (noneForgotten_nothingSent _ _) fun _ amount hmem => ?_
    rw [hempty] at hmem
    cases (taken_sublist _ _).subset hmem
  · cases validation with
    | some e => exact iff_of_true (noneForgotten_nothingSent _ _) fun h => nomatch h.1
    | none =>
        cases walletBalance with
        | error e =>
            refine iff_of_true (noneForgotten_nothingSent _ _) fun h => ?_
            obtain ⟨_, available, hbalance, _⟩ := h
            cases hbalance
        | ok available =>
            simp only
            split
            · rename_i hshort
              refine iff_of_true (noneForgotten_nothingSent _ _) fun h => ?_
              obtain ⟨_, _, hbalance, hsum⟩ := h
              cases hbalance
              exact absurd hsum (not_le.mpr hshort)
            · rename_i henough
              have hfunded : IsFunded none (.ok available) balances :=
                ⟨rfl, available, rfl, not_lt.mp henough⟩
              have hkeys : ((taken cancelledAfter (payable balances)).map Prod.fst).Nodup :=
                (nodup_payable haddresses).sublist ((taken_sublist _ _).map Prod.fst)
              have hsent : ∀ amount sent, transfer config send amount = some sent →
                  sent.address = amount.1 := by
                intro amount sent h
                rw [transfer] at h
                split at h
                · cases h
                  rfl
                · cases h
              have hpaid : ∀ amount entry, successBalance send pool amount = some entry →
                  entry.1.address = amount.1 := by
                intro amount entry h
                obtain ⟨txId, _, rfl⟩ := Option.map_eq_some_iff.mp h
                rfl
              rw [noneForgotten_oneByOne_iff _ _ hkeys hsent hpaid]
              simp only [isSome_transfer, isSome_successBalance, hfunded, forall_const,
                Option.not_isSome_iff_eq_none]

theorem writesPersisted_payout :
    WritesPersisted pool db
      (payout config send pool validation walletBalance cancelledAfter failure balances db) := by
  rw [payout]
  split
  · rfl
  · split
    · rfl
    · split
      · rfl
      · rfl
      · split
        · rfl
        · exact writesPersisted_oneByOne _ _ _ _

end WarthogPayoutHandler

/-! ## Pearl -/

/-- The handler is told the transaction id. -/
def PearlSend.IsReported (send : PearlSend) : Prop :=
  send.reply.error = none ∧ isNullOrWhiteSpace send.reply.response = false

namespace PearlPayoutHandler

variable {send : Balance → PearlSend} {walletPassphrase : Option String}
  {cancelledAfter : Option Nat}

/-- Once a transfer is accepted, the loop is not interrupted any more, the id is known and the
database does not fail. -/
def Remembers (send : Balance → PearlSend) (walletPassphrase : Option String)
    (cancelledAfter : Option Nat) (failure : Failures) (balances : List Balance) : Prop :=
  isNullOrWhiteSpace walletPassphrase = false →
    ∀ balance ∈ taken cancelledAfter balances, 0 < roundDecimals 8 balance.amount →
      (send balance).accepted = true →
        (∀ k ∈ cancelledAfter, balances.length ≤ k) ∧ (send balance).IsReported ∧ Commits failure

theorem isSome_transfer {balance : Balance} :
    (transfer send balance).isSome ↔
      0 < roundDecimals 8 balance.amount ∧ (send balance).accepted = true := by
  rw [transfer]
  by_cases hpos : roundDecimals 8 balance.amount ≤ 0
  · simp [hpos, not_lt.mpr hpos]
  · cases (send balance).accepted <;> simp [hpos, not_le.mp hpos]

theorem isSome_successBalance {balance : Balance} :
    (successBalance send balance).isSome ↔
      0 < roundDecimals 8 balance.amount ∧ (send balance).IsReported := by
  rw [successBalance, PearlSend.IsReported]
  by_cases hpos : roundDecimals 8 balance.amount ≤ 0
  · simp [hpos, not_lt.mpr hpos]
  · cases (send balance).reply.error <;>
      cases isNullOrWhiteSpace (send balance).reply.response <;>
        simp [hpos, not_le.mp hpos]

theorem noneForgotten_payout_iff (haddresses : (balances.map Balance.address).Nodup) :
    NoneForgotten (payout send walletPassphrase pool cancelledAfter failure balances db) ↔
      Remembers send walletPassphrase cancelledAfter failure balances := by
  rw [payout, Remembers]
  split
  · rename_i hempty
    rw [List.length_eq_zero_iff] at hempty
    subst hempty
    refine iff_of_true (noneForgotten_nothingSent _ _) fun _ balance hmem => ?_
    cases (taken_sublist _ _).subset hmem
  · split
    · rename_i hblank
      exact iff_of_true (noneForgotten_nothingSent _ _)
        fun h => absurd (hblank.symm.trans h) (by decide)
    · rename_i hblank
      have hkeys : ((taken cancelledAfter balances).map Balance.address).Nodup :=
        haddresses.sublist ((taken_sublist _ _).map Balance.address)
      have hsent : ∀ balance sent, transfer send balance = some sent →
          sent.address = balance.address := by
        intro balance sent h
        simp only [transfer] at h
        split at h
        · cases h
        · split at h
          · cases h
            rfl
          · cases h
      have hpaid : ∀ balance entry, successBalance send balance = some entry →
          entry.1.address = balance.address := by
        intro balance entry h
        simp only [successBalance] at h
        split at h
        · cases h
        · split at h
          · cases h
          · cases h
            rfl
      have hinterrupted : ¬(taken cancelledAfter balances).length < balances.length ↔
          ∀ k ∈ cancelledAfter, balances.length ≤ k := by
        cases cancelledAfter with
        | none => simp [taken]
        | some k => simp [taken]
      rw [noneForgotten_oneByOne_iff _ _ hkeys hsent hpaid]
      simp only [isSome_transfer, isSome_successBalance, hinterrupted, hblank, forall_const,
        and_imp]
      exact forall₄_congr fun balance _ hpos _ => by simp [hpos]

theorem writesPersisted_payout :
    WritesPersisted pool db
      (payout send walletPassphrase pool cancelledAfter failure balances db) := by
  rw [payout]
  split
  · rfl
  · split
    · rfl
    · exact writesPersisted_oneByOne _ _ _ _

end PearlPayoutHandler

/-! ## Kaspa -/

/-- There are transactions to sign and to broadcast. -/
def KaspaSend.IsBroadcast (send : KaspaSend) : Prop :=
  send.unsignedTransactions ≠ 0 ∧ send.signedTransactions ≠ 0

instance (send : KaspaSend) : Decidable send.IsBroadcast :=
  inferInstanceAs (Decidable (_ ∧ _))

namespace KaspaPayoutHandler

variable {walletPassword : Option String} {send : String × ℚ → KaspaSend}
  {available : Option (Fin (2 ^ 64))}

/-- The wallet satisfies the payments. -/
def IsFunded (available : Option (Fin (2 ^ 64))) (balances : List Balance) : Prop :=
  ((payable balances).map Prod.snd).sum ≤
    ((available.map fun n => (n.val : ℚ)).getD 0) / smallestUnit

/-- Whatever is broadcast and accepted comes back with an id, and the database does not fail. -/
def Remembers (walletPassword : Option String) (send : String × ℚ → KaspaSend)
    (available : Option (Fin (2 ^ 64))) (failure : Failures) (balances : List Balance) : Prop :=
  IsFunded available balances → walletPassword ≠ none →
    ∀ amount ∈ payable balances, (send amount).IsBroadcast → (send amount).accepted = true →
      (send amount).txIds ≠ [] ∧ Commits failure

/-- What an iteration sends and pays when its amount fits into an unsigned integer. -/
def transfer (send : String × ℚ → KaspaSend) (amount : String × ℚ) : Option Transfer :=
  if (send amount).IsBroadcast ∧ (send amount).accepted = true then
    some ⟨amount.1, ⌊amount.2 * smallestUnit⌋ / smallestUnit⟩
  else none

def successBalance (send : String × ℚ → KaspaSend) (pool : PoolConfig) (amount : String × ℚ) :
    Option (Balance × Option String) :=
  if (send amount).IsBroadcast then
    (send amount).txIds.head?.map fun txId => (⟨pool.id, amount.1, amount.2⟩, some txId)
  else none

/-- No amount of a funded payout is too large for the cast. -/
theorem toULong_of_isFunded (h : IsFunded available balances) {amount : String × ℚ}
    (hmem : amount ∈ payable balances) :
    toULong (amount.2 * smallestUnit) = .ok ⌊amount.2 * smallestUnit⌋ := by
  have hunit : (0 : ℚ) < smallestUnit := by norm_num [smallestUnit]
  have hnonneg : 0 ≤ amount.2 * smallestUnit :=
    mul_nonneg (pos_of_mem_payable hmem).le hunit.le
  have hle : amount.2 ≤ ((payable balances).map Prod.snd).sum := by
    apply List.single_le_sum
    · intro x hx
      obtain ⟨other, hother, rfl⟩ := List.mem_map.mp hx
      exact (pos_of_mem_payable hother).le
    · exact List.mem_map_of_mem hmem
  have hlt : amount.2 * smallestUnit < 2 ^ 64 := by
    have hsum := (le_div_iff₀ hunit).mp (hle.trans h)
    apply lt_of_le_of_lt hsum
    cases available with
    | none => norm_num
    | some n =>
        have hcast : ((2 ^ 64 : ℕ) : ℚ) = 2 ^ 64 := by norm_num
        exact lt_of_lt_of_eq (Nat.cast_lt.mpr n.isLt) hcast
  rw [toULong, if_pos hnonneg]
  apply if_pos
  refine ⟨Int.floor_nonneg.mpr hnonneg, Int.floor_lt.mpr ?_⟩
  exact_mod_cast hlt

theorem sendAmounts_eq {password : String} {amounts : List (String × ℚ)}
    (h : ∀ amount ∈ amounts,
      toULong (amount.2 * smallestUnit) = .ok ⌊amount.2 * smallestUnit⌋) :
    sendAmounts (some password) send pool amounts =
      (amounts.filterMap (transfer send), amounts.filterMap (successBalance send pool), none) := by
  induction amounts with
  | nil => rfl
  | cons amount amounts ih =>
      have hamount : sendAmount (some password) send pool amount =
          .ok (transfer send amount, successBalance send pool amount) := by
        rw [sendAmount, h amount List.mem_cons_self, transfer, successBalance]
        by_cases hunsigned : (send amount).unsignedTransactions = 0
        · simp [hunsigned, KaspaSend.IsBroadcast]
        · by_cases hsigned : (send amount).signedTransactions = 0
          · simp [hunsigned, hsigned, KaspaSend.IsBroadcast]
          · simp [hunsigned, hsigned, KaspaSend.IsBroadcast]
      rw [sendAmounts_cons, hamount, ih fun other hother => h other (List.mem_cons_of_mem _ hother)]
      cases htransfer : transfer send amount <;>
        cases hsuccess : successBalance send pool amount <;> simp [htransfer, hsuccess]

/-- Without a password nothing is ever broadcast. -/
theorem sendAmounts_none (amounts : List (String × ℚ)) :
    (sendAmounts none send pool amounts).1 = [] := by
  induction amounts with
  | nil => rfl
  | cons amount amounts ih =>
      rw [sendAmounts_cons]
      split
      · rfl
      · rename_i transfer success h
        rw [sendAmount] at h
        split at h
        · cases h
        · split at h
          · cases h
            exact ih
          · cases h

theorem noneForgotten_payout_iff (haddresses : (balances.map Balance.address).Nodup) :
    NoneForgotten (payout walletPassword send pool available failure balances db) ↔
      Remembers walletPassword send available failure balances := by
  rw [payout, payableAmounts_payable haddresses, Remembers]
  simp only
  split
  · rename_i hempty
    rw [List.length_eq_zero_iff] at hempty
    refine iff_of_true (noneForgotten_nothingSent _ _) fun _ _ amount hmem => ?_
    rw [hempty] at hmem
    cases hmem
  · split
    · rename_i hshort
      exact iff_of_true (noneForgotten_nothingSent _ _)
        fun h => absurd h (not_le.mpr hshort)
    · rename_i henough
      have hfunded : IsFunded available balances := not_lt.mp henough
      cases walletPassword with
      | none =>
          have hnone : (sendAmounts none send pool (payable balances)).1 = [] :=
            sendAmounts_none (payable balances)
          refine iff_of_true ?_ fun _ h => absurd rfl h
          generalize sendAmounts none send pool (payable balances) = result at hnone ⊢
          obtain ⟨transfers, successes, thrown⟩ := result
          cases hnone
          cases thrown with
          | some e => exact covers_nil_iff.mpr rfl
          | none =>
              simp only
              split
              · exact covers_nil_iff.mpr rfl
              · rw [NoneForgotten, PayoutOutcome.transfers_afterPersist]
                exact fun transfer hmem => nomatch hmem
      | some password =>
          rw [sendAmounts_eq fun amount hmem => toULong_of_isFunded hfunded hmem]
          have hsent : ∀ amount sent, transfer send amount = some sent →
              sent.address = amount.1 := by
            intro amount sent h
            rw [transfer] at h
            split at h
            · cases h
              rfl
            · cases h
          have hpaid : ∀ amount entry, successBalance send pool amount = some entry →
              entry.1.address = amount.1 := by
            intro amount entry h
            rw [successBalance] at h
            split at h
            · obtain ⟨txId, _, rfl⟩ := Option.map_eq_some_iff.mp h
              rfl
            · cases h
          refine (noneForgotten_oneByOne_iff False none (nodup_payable haddresses) hsent
            hpaid).trans ?_
          have htransfer : ∀ amount, (transfer send amount).isSome ↔
              (send amount).IsBroadcast ∧ (send amount).accepted = true := by
            intro amount
            rw [transfer]
            split <;> simp [*]
          have hsuccess : ∀ amount, (successBalance send pool amount).isSome ↔
              (send amount).IsBroadcast ∧ (send amount).txIds ≠ [] := by
            intro amount
            rw [successBalance]
            cases (send amount).txIds <;> split <;> simp [*]
          simp only [htransfer, hsuccess, hfunded, forall_const, and_imp, not_false_eq_true,
            true_and, ne_eq, reduceCtorEq]
          exact forall₄_congr fun amount _ hbroadcast _ => by simp [hbroadcast]

theorem writesPersisted_payout :
    WritesPersisted pool db (payout walletPassword send pool available failure balances db) := by
  rw [payout]
  split
  · rfl
  · split
    · rfl
    · split
      · rfl
      · simp only
        split
        · rfl
        · split
          · rfl
          · exact writesPersisted_persistPaymentsByBalance _ _ _

end KaspaPayoutHandler

end Handlers

end Miningcore
