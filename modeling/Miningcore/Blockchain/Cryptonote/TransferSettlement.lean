import Miningcore.Blockchain.Cryptonote.CryptonotePayoutHandler
import Miningcore.Payments.SettledTransfers

/-!
# Settlement of Cryptonote transfers

A transaction that was accepted is settled when its reply has a hash where the
handler looks for it and the database commits. The loops over transactions go on
as long as that is so.
-/

namespace Miningcore

open Foundation PayoutHandlerBase

namespace CryptonotePayoutHandler

section Conditions

variable (config : CryptonotePayoutConfig) (replies : CryptonoteReplies)
  (splitHash : TransferResult → Except Exception (Option String)) (requiredAmount : ℚ)
  (paid : List Balance)

/-- The transfer was too large and is tried again as a split transfer. -/
def IsSplit : Prop :=
  replies.transfer.error.map JsonRpcError.code = some transactionTooLarge ∧
    config.walletSupportsTransferSplit = true

instance : Decidable (IsSplit config replies) := inferInstanceAs (Decidable (_ ∧ _))

/-- The reply that decides about the transaction. -/
def decidingReply : RpcResponse TransferResult :=
  if IsSplit config replies then replies.transferSplit else replies.transfer

/-- The wallet has the required amount. -/
def IsFunded : Prop :=
  replies.balance.error = none ∧ ∃ unlockedBalance,
    replies.balance.response = some unlockedBalance ∧
    requiredAmount ≤ unlockedBalance / config.smallestUnit

/-- The transaction is made, and the wallet replies without an error. -/
def IsSent : Prop :=
  IsFunded config replies requiredAmount ∧ paid ≠ [] ∧
    (∀ balance ∈ paid, 0 ≤ ⌊balance.amount * config.smallestUnit⌋ ∧
      ⌊balance.amount * config.smallestUnit⌋ < 2 ^ 64) ∧
    (decidingReply config replies).error = none

/-- The reply has a hash where the handler looks for it, and the database commits. -/
def IsPersisted : Prop :=
  (∃ result hash, (decidingReply config replies).response = some result ∧
    (if IsSplit config replies then splitHash result else txHash result) = .ok (some hash) ∧
      hash ≠ "") ∧
    Commits replies.failure

/-- What is sent for each balance is the balance itself, if its payment is persisted, and nothing
otherwise. -/
def IsSettled : Prop :=
  IsSent config replies requiredAmount paid →
    (IsPersisted config replies splitHash →
      ∀ balance ∈ paid, sentAmount config balance = balance.amount) ∧
    (¬IsPersisted config replies splitHash → ∀ balance ∈ paid, sentAmount config balance = 0)

/-- The loop goes on behind the transaction. -/
def GoesOn : Prop :=
  IsSent config replies requiredAmount paid ∧ IsPersisted config replies splitHash ∨
    IsFunded config replies requiredAmount ∧ paid = []

/-- The transaction ends without an exception. -/
def Completes : Prop :=
  (replies.balance.error = none → replies.balance.response ≠ none) ∧
  (IsFunded config replies requiredAmount → ∀ balance ∈ paid,
    0 ≤ ⌊balance.amount * config.smallestUnit⌋ ∧
      ⌊balance.amount * config.smallestUnit⌋ < 2 ^ 64) ∧
  (IsSent config replies requiredAmount paid → IsPersisted config replies splitHash)

end Conditions

variable {config : CryptonotePayoutConfig} {pool : PoolConfig} {replies : CryptonoteReplies}
  {splitHash : TransferResult → Except Exception (Option String)} {requiredAmount : ℚ}
  {paid balances : List Balance} {db : Database}

/-- What a transaction can do, after the source. -/
structure TransactionEnd (config : CryptonotePayoutConfig) (pool : PoolConfig)
    (replies : CryptonoteReplies) (splitHash : TransferResult → Except Exception (Option String))
    (requiredAmount : ℚ) (paid balances : List Balance) (db : Database)
    (result : PayoutOutcome × Bool) : Prop where
  writesPersisted : WritesPersisted pool db result.1
  transfers_of_isSent : IsSent config replies requiredAmount paid →
    result.1.transfers = paid.map fun balance => ⟨balance.address, sentAmount config balance⟩
  transfers_of_not_isSent : ¬IsSent config replies requiredAmount paid →
    result.1.transfers = [] ∧ result.1.persisted = []
  persisted_of_isPersisted : IsSent config replies requiredAmount paid →
    IsPersisted config replies splitHash → ∃ txId, result.1.persisted = balances.map (·, txId)
  persisted_of_not_isPersisted : ¬IsPersisted config replies splitHash → result.1.persisted = []
  goesOn_iff : ¬(result.1.thrown.isSome ∨ result.2 = false) ↔
    GoesOn config replies splitHash requiredAmount paid
  completes_iff : result.1.thrown = none ↔ Completes config replies splitHash requiredAmount paid

theorem ensureBalance_eq_ok_true_iff :
    ensureBalance config replies.balance requiredAmount = .ok true ↔
      IsFunded config replies requiredAmount := by
  rw [ensureBalance, IsFunded]
  cases replies.balance.error with
  | some e => simp
  | none => cases replies.balance.response <;> simp

theorem toULong_floor (x : ℚ) :
    toULong ⌊x⌋ = if 0 ≤ ⌊x⌋ ∧ ⌊x⌋ < 2 ^ 64 then .ok ⌊x⌋ else .error (.overflow "UInt64") := by
  rw [toULong, Int.floor_intCast, Int.ceil_intCast, ite_self]

/-- The destinations of a request that can be built are the amounts sent for the balances. -/
theorem destinations_eq_ok_iff {transfers : List Transfer} :
    destinations config paid = .ok transfers ↔
      (∀ balance ∈ paid, 0 ≤ ⌊balance.amount * config.smallestUnit⌋ ∧
        ⌊balance.amount * config.smallestUnit⌋ < 2 ^ 64) ∧
      paid.map (fun balance => ⟨balance.address, sentAmount config balance⟩) = transfers := by
  induction paid generalizing transfers with
  | nil =>
      change Except.ok [] = Except.ok transfers ↔ _
      simp
  | cons balance paid ih =>
      rw [destinations_cons, toULong_floor, List.forall_mem_cons]
      by_cases hfits : 0 ≤ ⌊balance.amount * config.smallestUnit⌋ ∧
          ⌊balance.amount * config.smallestUnit⌋ < 2 ^ 64
      · rw [if_pos hfits]
        cases hrest : destinations config paid with
        | error e =>
            refine iff_of_false (fun h => nomatch h) ?_
            rintro ⟨⟨_, hpaid⟩, _⟩
            have hok := ih.mpr ⟨hpaid, rfl⟩
            rw [hrest] at hok
            cases hok
        | ok rest =>
            obtain ⟨hpaid, heq⟩ := ih.mp hrest
            rw [List.map_cons, heq]
            constructor
            · intro h
              exact ⟨⟨hfits, hpaid⟩, Except.ok.inj h⟩
            · rintro ⟨_, rfl⟩
              rfl
      · rw [if_neg hfits]
        refine iff_of_false (fun h => ?_) fun h => hfits h.1.1
        split at h
        · rename_i heq _
          cases heq
        · cases h
        · cases h

/-- How a reply to a transaction is handled. -/
theorem handleTransferResponse_eq (pool : PoolConfig) (failure : Failures)
    (transfers : List Transfer) (hash : TransferResult → Except Exception (Option String))
    (balances : List Balance) (db : Database) {response : RpcResponse TransferResult}
    (haccepted : response.error = none) :
    (∃ result txId, response.response = some result ∧ hash result = .ok (some txId) ∧ txId ≠ "" ∧
      Commits failure ∧
      handleTransferResponse pool failure transfers response hash balances db =
        (⟨transfers, balances.map (·, some txId),
          persistEntries pool db (balances.map (·, some txId)), none⟩, true)) ∨
    ((¬∃ result txId, response.response = some result ∧ hash result = .ok (some txId) ∧
        txId ≠ "" ∧ Commits failure) ∧
      ∃ e accepted, handleTransferResponse pool failure transfers response hash balances db =
        (⟨transfers, [], db, some e⟩, accepted)) := by
  rw [handleTransferResponse, haccepted]
  simp only [Option.isSome_none, Bool.false_eq_true, if_false]
  cases response.response with
  | none => exact Or.inr ⟨by simp, _, _, rfl⟩
  | some result =>
      simp only
      cases hhash : hash result with
      | error e => exact Or.inr ⟨by simp [hhash], e, false, rfl⟩
      | ok txId =>
          simp only
          cases hpersist : persistPayments pool failure balances txId db with
          | error e =>
              refine Or.inr ⟨?_, e, true, rfl⟩
              rintro ⟨_, id, hresult, hid, hne, hcommits⟩
              cases hresult
              rw [hhash, Except.ok.injEq] at hid
              subst hid
              have hok : persistPayments pool failure balances (some id) db = .ok _ :=
                persistPayments_eq_ok_iff.mpr ⟨by simpa [isNullOrEmpty] using hne, hcommits, rfl⟩
              rw [hpersist] at hok
              cases hok
          | ok db' =>
              obtain ⟨hid, hcommits, rfl⟩ := persistPayments_eq_ok_iff.mp hpersist
              cases txId with
              | none => simp [isNullOrEmpty] at hid
              | some id =>
                  exact Or.inl ⟨result, id, rfl, hhash, by simpa [isNullOrEmpty] using hid,
                    hcommits, rfl⟩

/-- A transaction that is not sent. -/
theorem transactionEnd_of_not_isSent (hsent : ¬IsSent config replies requiredAmount paid)
    {thrown : Option Exception} {accepted : Bool}
    (hgoesOn : ¬(thrown.isSome ∨ accepted = false) ↔
      IsFunded config replies requiredAmount ∧ paid = [])
    (hcompletes : thrown = none ↔ Completes config replies splitHash requiredAmount paid) :
    TransactionEnd config pool replies splitHash requiredAmount paid balances db
      (.nothingSent db thrown, accepted) where
  writesPersisted := rfl
  transfers_of_isSent h := absurd h hsent
  transfers_of_not_isSent _ := ⟨rfl, rfl⟩
  persisted_of_isPersisted h := absurd h hsent
  persisted_of_not_isPersisted _ := rfl
  goesOn_iff := by
    rw [GoesOn]
    simp only [hsent, false_and, false_or]
    exact hgoesOn
  completes_iff := hcompletes

/-- A transaction that is sent. -/
theorem transactionEnd_of_accepted (hsent : IsSent config replies requiredAmount paid) :
    TransactionEnd config pool replies splitHash requiredAmount paid balances db
      (handleTransferResponse pool replies.failure
        (paid.map fun balance => ⟨balance.address, sentAmount config balance⟩)
        (decidingReply config replies) (if IsSplit config replies then splitHash else txHash)
        balances db) := by
  have hpersisted : IsPersisted config replies splitHash ↔
      ∃ result txId, (decidingReply config replies).response = some result ∧
        (if IsSplit config replies then splitHash else txHash) result = .ok (some txId) ∧
          txId ≠ "" ∧ Commits replies.failure := by
    rw [IsPersisted]
    constructor
    · rintro ⟨⟨result, txId, hresult, hhash, hne⟩, hcommits⟩
      refine ⟨result, txId, hresult, ?_, hne, hcommits⟩
      rw [← hhash]
      split <;> rfl
    · rintro ⟨result, txId, hresult, hhash, hne, hcommits⟩
      refine ⟨⟨result, txId, hresult, ?_, hne⟩, hcommits⟩
      rw [← hhash]
      split <;> rfl
  have hanswered : replies.balance.error = none → replies.balance.response ≠ none := by
    obtain ⟨_, unlockedBalance, hbalance, _⟩ := hsent.1
    intro _ h
    cases h.symm.trans hbalance
  have hgoesOn : GoesOn config replies splitHash requiredAmount paid ↔
      IsPersisted config replies splitHash := by
    simp only [GoesOn, hsent, true_and, hsent.2.1, and_false, or_false]
  obtain ⟨result, txId, hresult, hhash, hne, hcommits, heq⟩ | ⟨hfails, e, accepted, heq⟩ :=
    handleTransferResponse_eq pool replies.failure
      (paid.map fun balance => ⟨balance.address, sentAmount config balance⟩)
      (if IsSplit config replies then splitHash else txHash) balances db hsent.2.2.2
  · have hdone := hpersisted.mpr ⟨result, txId, hresult, hhash, hne, hcommits⟩
    rw [heq]
    refine ⟨rfl, fun _ => rfl, fun h => absurd hsent h, fun _ _ => ⟨some txId, rfl⟩,
      fun h => absurd hdone h, ?_,
        iff_of_true rfl ⟨hanswered, fun _ => hsent.2.2.1, fun _ => hdone⟩⟩
    rw [hgoesOn]
    exact iff_of_true (by simp) hdone
  · have hopen : ¬IsPersisted config replies splitHash := fun h => hfails (hpersisted.mp h)
    rw [heq]
    refine ⟨rfl, fun _ => rfl, fun h => absurd hsent h, fun _ h => absurd h hopen,
      fun _ => rfl, ?_, iff_of_false (by simp) fun h => hopen (h.2.2 hsent)⟩
    rw [hgoesOn]
    exact iff_of_false (by simp) hopen

/-- The reply to the balance is missing when the check of it throws. -/
theorem ensureBalance_eq_error {e : Exception}
    (h : ensureBalance config replies.balance requiredAmount = .error e) :
    replies.balance.error = none ∧ replies.balance.response = none := by
  rw [ensureBalance] at h
  split at h
  · cases h
  · rename_i hnone
    split at h
    · rename_i hresponse
      exact ⟨by simpa using hnone, hresponse⟩
    · cases h

theorem answered_of_ensureBalance_eq_ok {enough : Bool}
    (h : ensureBalance config replies.balance requiredAmount = .ok enough)
    (herror : replies.balance.error = none) : replies.balance.response ≠ none := by
  intro hresponse
  rw [ensureBalance, herror, hresponse] at h
  cases h

/-- Both calls are handled alike. -/
theorem handleTransferResponse_decidingReply (transfers : List Transfer) :
    (if IsSplit config replies then
      handleTransferResponse pool replies.failure transfers replies.transferSplit splitHash
        balances db
    else handleTransferResponse pool replies.failure transfers replies.transfer txHash balances
      db) =
    handleTransferResponse pool replies.failure transfers (decidingReply config replies)
      (if IsSplit config replies then splitHash else txHash) balances db := by
  rw [decidingReply]
  split <;> rfl

/-- A transaction for which the wallet has the balance. -/
theorem transactionEnd_of_isFunded (hfunded : IsFunded config replies requiredAmount) :
    TransactionEnd config pool replies splitHash requiredAmount paid balances db
      (payoutTransaction config pool replies splitHash requiredAmount paid balances db) := by
  have hbalance := ensureBalance_eq_ok_true_iff.mpr hfunded
  have hanswered := answered_of_ensureBalance_eq_ok hbalance
  rw [payoutTransaction, hbalance]
  cases hdestinations : destinations config paid with
  | error e =>
      have hfits : ¬∀ balance ∈ paid, 0 ≤ ⌊balance.amount * config.smallestUnit⌋ ∧
          ⌊balance.amount * config.smallestUnit⌋ < 2 ^ 64 := by
        intro hfits
        have hok := destinations_eq_ok_iff.mpr ⟨hfits, rfl⟩
        rw [hdestinations] at hok
        cases hok
      apply transactionEnd_of_not_isSent (fun h => hfits h.2.2.1)
      · refine iff_of_false (by simp) ?_
        rintro ⟨_, rfl⟩
        exact hfits (List.forall_mem_nil _)
      · exact iff_of_false (by simp) fun h => hfits (h.2.1 hfunded)
  | ok transfers =>
      obtain ⟨hfits, rfl⟩ := destinations_eq_ok_iff.mp hdestinations
      simp only [List.length_map]
      split
      · rename_i hempty
        rw [List.length_eq_zero_iff] at hempty
        apply transactionEnd_of_not_isSent (fun h => h.2.1 hempty)
        · simp [hfunded, hempty]
        · exact iff_of_true rfl ⟨hanswered, fun _ => hfits, fun h => absurd hempty h.2.1⟩
      · rename_i hempty
        have hne : paid ≠ [] := fun h => hempty (List.length_eq_zero_iff.mpr h)
        refine Eq.subst (motive := TransactionEnd config pool replies splitHash
          requiredAmount paid balances db) (handleTransferResponse_decidingReply _).symm ?_
        cases herror : (decidingReply config replies).error with
        | some e =>
            rw [handleTransferResponse, herror, if_pos Option.isSome_some]
            have hrefused : ¬IsSent config replies requiredAmount paid := fun h =>
              nomatch herror.symm.trans h.2.2.2
            apply transactionEnd_of_not_isSent hrefused
            · simp [hne]
            · exact iff_of_true rfl ⟨hanswered, fun _ => hfits, fun h => absurd h hrefused⟩
        | none => exact transactionEnd_of_accepted ⟨hfunded, hne, hfits, herror⟩

theorem transactionEnd_payoutTransaction :
    TransactionEnd config pool replies splitHash requiredAmount paid balances db
      (payoutTransaction config pool replies splitHash requiredAmount paid balances db) := by
  by_cases hfunded : IsFunded config replies requiredAmount
  · exact transactionEnd_of_isFunded hfunded
  have hunsent : ¬IsSent config replies requiredAmount paid := fun h => hfunded h.1
  rw [payoutTransaction]
  cases hbalance : ensureBalance config replies.balance requiredAmount with
  | error e =>
      obtain ⟨herror, hresponse⟩ := ensureBalance_eq_error hbalance
      apply transactionEnd_of_not_isSent hunsent
      · simp [hfunded]
      · exact iff_of_false (by simp) fun h => h.1 herror hresponse
  | ok enough =>
      cases enough with
      | true => exact absurd (ensureBalance_eq_ok_true_iff.mp hbalance) hfunded
      | false =>
          have hanswered := answered_of_ensureBalance_eq_ok hbalance
          apply transactionEnd_of_not_isSent hunsent
          · simp [hfunded]
          · exact iff_of_true rfl
              ⟨hanswered, fun h => absurd h hfunded, fun h => absurd h hunsent⟩

/-! ## Loops over transactions -/

section Loops

variable {α : Type} {paidOf balancesOf : α → List Balance} {required : α → ℚ}

/-- Each transaction the loop gets to is settled. -/
def EachSettled (config : CryptonotePayoutConfig)
    (splitHash : TransferResult → Except Exception (Option String)) (required : α → ℚ)
    (paidOf : α → List Balance) (replies : Nat → CryptonoteReplies) : Nat → List α → Prop
  | _, [] => True
  | i, x :: rest =>
      IsSettled config (replies i) splitHash (required x) (paidOf x) ∧
        (GoesOn config (replies i) splitHash (required x) (paidOf x) →
          EachSettled config splitHash required paidOf replies (i + 1) rest)

/-- None of the transactions the loop gets to ends with an exception. -/
def EachCompletes (config : CryptonotePayoutConfig)
    (splitHash : TransferResult → Except Exception (Option String)) (required : α → ℚ)
    (paidOf : α → List Balance) (replies : Nat → CryptonoteReplies) : Nat → List α → Prop
  | _, [] => True
  | i, x :: rest =>
      Completes config (replies i) splitHash (required x) (paidOf x) ∧
        (GoesOn config (replies i) splitHash (required x) (paidOf x) →
          EachCompletes config splitHash required paidOf replies (i + 1) rest)

/-- The settlement of one transaction. -/
theorem settles_transactionEnd_iff (haddresses : (balances.map Balance.address).Nodup)
    (hpaid : paid ⊆ balances) {result : PayoutOutcome × Bool}
    (h : TransactionEnd config pool replies splitHash requiredAmount paid balances db result) :
    Settles result.1.persisted result.1.transfers ↔
      IsSettled config replies splitHash requiredAmount paid := by
  by_cases hsent : IsSent config replies requiredAmount paid
  · rw [h.transfers_of_isSent hsent, IsSettled]
    by_cases hpersisted : IsPersisted config replies splitHash
    · obtain ⟨txId, heq⟩ := h.persisted_of_isPersisted hsent hpersisted
      have hiff := settles_transaction_iff haddresses hpaid (sentAmount config) txId True
      simp only [if_true] at hiff
      rw [heq, hiff]
      simp [hsent, hpersisted]
    · have hiff := settles_transaction_iff haddresses hpaid (sentAmount config) none False
      simp only [if_false] at hiff
      rw [h.persisted_of_not_isPersisted hpersisted, hiff]
      simp [hsent, hpersisted]
  · rw [(h.transfers_of_not_isSent hsent).1]
    exact iff_of_true (settles_nothing _) fun h => absurd h hsent

/-- What a transaction sends and persists belongs to its balances. -/
theorem address_of_transactionEnd (hpaid : paid ⊆ balances) {result : PayoutOutcome × Bool}
    (h : TransactionEnd config pool replies splitHash requiredAmount paid balances db result) :
    (∀ transfer ∈ result.1.transfers, transfer.address ∈ balances.map Balance.address) ∧
      ∀ entry ∈ result.1.persisted, entry.1.address ∈ balances.map Balance.address := by
  by_cases hsent : IsSent config replies requiredAmount paid
  · constructor
    · rw [h.transfers_of_isSent hsent, List.forall_mem_map]
      exact fun balance hmem => List.mem_map_of_mem (hpaid hmem)
    · by_cases hpersisted : IsPersisted config replies splitHash
      · obtain ⟨txId, heq⟩ := h.persisted_of_isPersisted hsent hpersisted
        rw [heq, List.forall_mem_map]
        exact fun balance hmem => List.mem_map_of_mem hmem
      · rw [h.persisted_of_not_isPersisted hpersisted]
        exact List.forall_mem_nil _
  · obtain ⟨htransfers, hpersisted⟩ := h.transfers_of_not_isSent hsent
    rw [htransfers, hpersisted]
    exact ⟨List.forall_mem_nil _, List.forall_mem_nil _⟩

/-- The loop whose steps are these transactions. -/
abbrev transactions (config : CryptonotePayoutConfig) (pool : PoolConfig)
    (splitHash : TransferResult → Except Exception (Option String)) (required : α → ℚ)
    (paidOf balancesOf : α → List Balance) :
    (Nat → CryptonoteReplies) → Nat → List α → Database → PayoutOutcome :=
  payoutEach fun replies x db =>
    payoutTransaction config pool replies splitHash (required x) (paidOf x) (balancesOf x) db

variable {replies : Nat → CryptonoteReplies} {i : Nat} {items : List α}

theorem payoutEach_cons {pay : CryptonoteReplies → α → Database → PayoutOutcome × Bool} {x : α} :
    payoutEach pay replies i (x :: items) db =
      if (pay (replies i) x db).1.thrown.isSome ∨ (pay (replies i) x db).2 = false then
        (pay (replies i) x db).1
      else (payoutEach pay replies (i + 1) items (pay (replies i) x db).1.db).after
        (pay (replies i) x db).1.transfers (pay (replies i) x db).1.persisted := rfl

theorem writesPersisted_after {first : PayoutOutcome} {later : PayoutOutcome}
    (hfirst : WritesPersisted pool db first) (hlater : WritesPersisted pool first.db later) :
    WritesPersisted pool db (later.after first.transfers first.persisted) := by
  rw [WritesPersisted] at hfirst hlater ⊢
  rw [PayoutOutcome.after, hlater, hfirst, persistEntries, persistEntries, persistEntries,
    ← List.foldl_append]

theorem writesPersisted_transactions :
    WritesPersisted pool db
      (transactions config pool splitHash required paidOf balancesOf replies i items db) := by
  induction items generalizing i db with
  | nil => rfl
  | cons x items ih =>
      rw [transactions, payoutEach_cons]
      have hend : TransactionEnd config pool (replies i) splitHash (required x) (paidOf x)
        (balancesOf x) db _ := transactionEnd_payoutTransaction
      split
      · exact hend.writesPersisted
      · exact writesPersisted_after hend.writesPersisted ih

/-- What the loop sends and persists belongs to its items. -/
theorem address_of_transactions (hpaid : ∀ x, paidOf x ⊆ balancesOf x) :
    let outcome := transactions config pool splitHash required paidOf balancesOf replies i items db
    (∀ transfer ∈ outcome.transfers,
        transfer.address ∈ (items.flatMap balancesOf).map Balance.address) ∧
      ∀ entry ∈ outcome.persisted,
        entry.1.address ∈ (items.flatMap balancesOf).map Balance.address := by
  induction items generalizing i db with
  | nil => exact ⟨List.forall_mem_nil _, List.forall_mem_nil _⟩
  | cons x items ih =>
      have hend : TransactionEnd config pool (replies i) splitHash (required x) (paidOf x)
        (balancesOf x) db _ := transactionEnd_payoutTransaction
      obtain ⟨htransfers, hpersisted⟩ := address_of_transactionEnd (hpaid x) hend
      rw [transactions, payoutEach_cons, List.flatMap_cons, List.map_append]
      split
      · exact ⟨fun transfer hmem => List.mem_append_left _ (htransfers transfer hmem),
          fun entry hmem => List.mem_append_left _ (hpersisted entry hmem)⟩
      · simp only [PayoutOutcome.transfers_after, PayoutOutcome.persisted_after,
          List.forall_mem_append]
        refine ⟨⟨fun transfer hmem => List.mem_append_left _ (htransfers transfer hmem), ?_⟩,
          fun entry hmem => List.mem_append_left _ (hpersisted entry hmem), ?_⟩
        · exact fun transfer hmem => List.mem_append_right _ (ih.1 transfer hmem)
        · exact fun entry hmem => List.mem_append_right _ (ih.2 entry hmem)

theorem settles_transactions_iff (hpaid : ∀ x, paidOf x ⊆ balancesOf x)
    (haddresses : ((items.flatMap balancesOf).map Balance.address).Nodup) :
    let outcome := transactions config pool splitHash required paidOf balancesOf replies i items db
    Settles outcome.persisted outcome.transfers ↔
      EachSettled config splitHash required paidOf replies i items := by
  induction items generalizing i db with
  | nil => exact iff_of_true (settles_nothing _) trivial
  | cons x items ih =>
      have hend : TransactionEnd config pool (replies i) splitHash (required x) (paidOf x)
        (balancesOf x) db _ := transactionEnd_payoutTransaction
      rw [List.flatMap_cons, List.map_append] at haddresses
      obtain ⟨hfirst, hrest, hdisjoint⟩ := List.nodup_append'.mp haddresses
      have hsettles := settles_transactionEnd_iff hfirst (hpaid x) hend
      rw [transactions, payoutEach_cons, EachSettled]
      split
      · rename_i hstops
        have hgoes := mt hend.goesOn_iff.mpr (not_not.mpr hstops)
        simp only [hgoes, false_implies, and_true]
        exact hsettles
      · rename_i hgoes
        have hgoes := hend.goesOn_iff.mp hgoes
        simp only [hgoes, forall_const]
        obtain ⟨htransfers, hpersisted⟩ := address_of_transactionEnd (hpaid x) hend
        refine (settles_append_iff hpersisted htransfers ?_ ?_).trans
          (and_congr hsettles (ih hrest))
        · exact fun entry hmem hx => hdisjoint hx ((address_of_transactions hpaid).2 entry hmem)
        · exact fun transfer hmem hx =>
            hdisjoint hx ((address_of_transactions hpaid).1 transfer hmem)

theorem thrown_transactions_iff (balancesOf : α → List Balance) :
    (transactions config pool splitHash required paidOf balancesOf replies i items db).thrown =
        none ↔
      EachCompletes config splitHash required paidOf replies i items := by
  induction items generalizing i db with
  | nil => exact iff_of_true rfl trivial
  | cons x items ih =>
      have hend : TransactionEnd config pool (replies i) splitHash (required x) (paidOf x)
        (balancesOf x) db _ := transactionEnd_payoutTransaction
      rw [transactions, payoutEach_cons, EachCompletes]
      split
      · rename_i hstops
        have hgoes := mt hend.goesOn_iff.mpr (not_not.mpr hstops)
        simp only [hgoes, false_implies, and_true]
        exact hend.completes_iff
      · rename_i hgoes
        have hcompletes := hend.completes_iff.mp (by
          rw [not_or] at hgoes
          simpa using hgoes.1)
        simp only [hend.goesOn_iff.mp hgoes, forall_const, hcompletes, true_and]
        exact ih

end Loops

/-! ## The whole call -/

/-- The transactions of the pages, and if these end without an exception, those of the balances
with a payment id, are settled. -/
def IsPayoutSettled (config : CryptonotePayoutConfig) (pool : PoolConfig) (info : RpcResponse Nat)
    (pageReplies paymentIdReplies : Nat → CryptonoteReplies) (balances : List Balance) : Prop :=
  info.error = none → 2 ≤ info.response.getD 0 →
    EachSettled config firstTxHash (fun page => (page.map Balance.amount).sum)
      (fun page => page.filter fun balance => 0 < balance.amount) pageReplies 0
      (skipTakePages (pageSize config) (simpleBalances config balances)) ∧
    (EachCompletes config firstTxHash (fun page => (page.map Balance.amount).sum)
        (fun page => page.filter fun balance => 0 < balance.amount) pageReplies 0
        (skipTakePages (pageSize config) (simpleBalances config balances)) →
      EachSettled config txHash Balance.amount (fun balance => [balance]) paymentIdReplies 0
        (paymentIdBalances config pool balances))

theorem mem_of_mem_simpleBalances {balance : Balance}
    (h : balance ∈ simpleBalances config balances) : balance ∈ balances :=
  List.mem_of_mem_filter (List.mem_of_mem_filter (mem_sortDescending.mp h))

theorem nodup_address_pages (haddresses : (balances.map Balance.address).Nodup) :
    (((skipTakePages (pageSize config) (simpleBalances config balances)).flatMap id).map
      Balance.address).Nodup := by
  have hsimple : ((simpleBalances config balances).map Balance.address).Nodup := by
    have hperm : (simpleBalances config balances).Perm _ := perm_sortDescending _
    rw [(hperm.map Balance.address).nodup_iff]
    exact haddresses.sublist
      ((List.filter_sublist.trans List.filter_sublist).map Balance.address)
  rw [List.flatMap_id]
  exact hsimple.sublist ((flatten_skipTakePages_sublist _ _).map Balance.address)

theorem nodup_address_paymentIdBalances (haddresses : (balances.map Balance.address).Nodup) :
    (((paymentIdBalances config pool balances).flatMap fun balance => [balance]).map
      Balance.address).Nodup := by
  rw [List.flatMap_singleton']
  exact haddresses.sublist
    (((List.filter_sublist.trans List.filter_sublist).trans List.filter_sublist).map
      Balance.address)

/-- The balances that are paid one by one are none of those paid in batches. -/
theorem disjoint_address_payout (config : CryptonotePayoutConfig) (pool : PoolConfig)
    (haddresses : (balances.map Balance.address).Nodup) :
    (((skipTakePages (pageSize config) (simpleBalances config balances)).flatMap id).map
      Balance.address).Disjoint
    (((paymentIdBalances config pool balances).flatMap fun balance => [balance]).map
      Balance.address) := by
  rw [List.flatMap_id, List.flatMap_singleton']
  intro address hpage hpaymentId
  obtain ⟨simple, hsimple, rfl⟩ := List.mem_map.mp hpage
  obtain ⟨balance, hbalance, heq⟩ := List.mem_map.mp hpaymentId
  have hsimple := (flatten_skipTakePages_sublist _ _).subset hsimple
  obtain ⟨hbalance, hnotSimple⟩ := List.mem_filter.mp (List.mem_of_mem_filter hbalance)
  have hsame : balance = simple := List.inj_on_of_nodup_map haddresses
    (List.mem_of_mem_filter hbalance) (mem_of_mem_simpleBalances hsimple) heq
  exact of_decide_eq_true hnotSimple (hsame ▸ hsimple)

theorem writesPersisted_payout {info : RpcResponse Nat}
    {pageReplies paymentIdReplies : Nat → CryptonoteReplies} :
    WritesPersisted pool db
      (payout config pool info pageReplies paymentIdReplies balances db) := by
  rw [payout]
  split
  · rfl
  · simp only
    split
    · exact writesPersisted_transactions
    · exact writesPersisted_after writesPersisted_transactions writesPersisted_transactions

theorem settles_payout_iff {info : RpcResponse Nat}
    {pageReplies paymentIdReplies : Nat → CryptonoteReplies}
    (haddresses : (balances.map Balance.address).Nodup) :
    Settles (payout config pool info pageReplies paymentIdReplies balances db).persisted
        (payout config pool info pageReplies paymentIdReplies balances db).transfers ↔
      IsPayoutSettled config pool info pageReplies paymentIdReplies balances := by
  have hfilter : ∀ page : List Balance,
      (page.filter fun balance => 0 < balance.amount) ⊆ id page :=
    fun page => List.filter_subset_self _
  have hsingle : ∀ balance : Balance, [balance] ⊆ [balance] := fun _ => List.Subset.refl _
  let pages := skipTakePages (pageSize config) (simpleBalances config balances)
  let first := payoutEach (payoutBatch config pool) pageReplies 0 pages db
  have hsettles : Settles first.persisted first.transfers ↔
      EachSettled config firstTxHash (fun page => (page.map Balance.amount).sum)
        (fun page => page.filter fun balance => 0 < balance.amount) pageReplies 0 pages :=
    settles_transactions_iff hfilter (nodup_address_pages haddresses)
  have hcompletes : first.thrown = none ↔
      EachCompletes config firstTxHash (fun page => (page.map Balance.amount).sum)
        (fun page => page.filter fun balance => 0 < balance.amount) pageReplies 0 pages :=
    thrown_transactions_iff id
  have hpages : (∀ transfer ∈ first.transfers,
        transfer.address ∈ (pages.flatMap id).map Balance.address) ∧
      ∀ entry ∈ first.persisted, entry.1.address ∈ (pages.flatMap id).map Balance.address :=
    address_of_transactions hfilter
  rw [payout, IsPayoutSettled]
  split
  · rename_i hpeers
    refine iff_of_true (settles_nothing _) fun herror hcount => ?_
    cases hpeers with
    | inl hsome => simp [herror] at hsome
    | inr hfew => omega
  · rename_i hpeers
    have herror : info.error = none := by
      rw [← Option.not_isSome_iff_eq_none]
      exact fun h => hpeers (Or.inl h)
    have hcount : 2 ≤ info.response.getD 0 := by omega
    simp only [herror, hcount, forall_const]
    split
    · rename_i hthrown
      have hfails := mt hcompletes.mpr (Option.ne_none_iff_isSome.mpr hthrown)
      exact hsettles.trans ⟨fun h => ⟨h, fun hdone => absurd hdone hfails⟩, fun h => h.1⟩
    · rename_i hthrown
      have hdone := hcompletes.mp (Option.not_isSome_iff_eq_none.mp hthrown)
      have hdisjoint := disjoint_address_payout config pool haddresses
      refine (settles_append_iff hpages.2 hpages.1 ?_ ?_).trans ((and_congr hsettles
        (settles_transactions_iff hsingle (nodup_address_paymentIdBalances haddresses))).trans
          ⟨fun h => ⟨h.1, fun _ => h.2⟩, fun h => ⟨h.1, h.2 hdone⟩⟩)
      · exact fun entry hmem hpage =>
          hdisjoint hpage ((address_of_transactions hsingle).2 entry hmem)
      · exact fun transfer hmem hpage =>
          hdisjoint hpage ((address_of_transactions hsingle).1 transfer hmem)

end CryptonotePayoutHandler

end Miningcore
