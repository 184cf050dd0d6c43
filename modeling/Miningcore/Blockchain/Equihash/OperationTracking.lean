import Miningcore.Payments.AcceptedTransfers
import Miningcore.Blockchain.Equihash.EquihashPayoutHandler
import Miningcore.Foundation.EarlyExit

/-!
# Tracking of operations

A page whose operation the daemon carries out is remembered when the polling
loop gets to see the success of the operation.
-/

namespace Miningcore

open Foundation PayoutHandlerBase

namespace Poll

/-- The poll does not decide the operation, and the delay does not see the token. -/
def IsUndecided (operationId : String) (poll : Poll) : Prop :=
  poll.cancelled = false ∧ ∀ operation,
    (poll.operations.find? fun operation => operation.operationId = some operationId) =
      some operation →
    ∃ status, ZOperationStatus.tryParse operation.status = some status ∧
      status ∈ [.queued, .executing, .undefined]

/-- The poll reports the success of the operation with this transaction id. -/
def ReportsSuccess (operationId txId : String) (poll : Poll) : Prop :=
  ∃ operation,
    (poll.operations.find? fun operation => operation.operationId = some operationId) =
      some operation ∧
    ZOperationStatus.tryParse operation.status = some .success ∧ operation.txId.getD "" = txId

end Poll

/-- The daemon gives the operation an id, and the first poll that is not undecided reports its
success with a transaction id. -/
def PageReplies.ReportsSuccess (config : EquihashPayoutConfig) (replies : PageReplies) : Prop :=
  ∃ operationId txId earlier poll later,
    callUnlocked config.walletPassword replies.send replies.walletPassphrase =
      .ok (some operationId) ∧
    operationId ≠ "" ∧ txId ≠ "" ∧ replies.polls = earlier ++ poll :: later ∧
    (∀ poll ∈ earlier, poll.IsUndecided operationId) ∧ poll.ReportsSuccess operationId txId

namespace EquihashPayoutHandler

/-- A poll ends the loop with its success, or it is undecided and the rest of the loop decides. -/
theorem awaitOperation_cons_eq_succeeded_iff {operationId txId : String} {poll : Poll}
    {polls : List Poll} :
    awaitOperation operationId (poll :: polls) = .succeeded txId ↔
      poll.ReportsSuccess operationId txId ∨
        poll.IsUndecided operationId ∧ awaitOperation operationId polls = .succeeded txId := by
  rw [awaitOperation, Poll.ReportsSuccess, Poll.IsUndecided]
  cases hfind : poll.operations.find? fun operation =>
      operation.operationId = some operationId with
  | none => cases poll.cancelled <;> simp
  | some operation =>
      cases hstatus : ZOperationStatus.tryParse operation.status with
      | none => simp [hstatus]
      | some status =>
          cases status with
          | success => simp [hstatus]
          | cancelled | failed => cases herror : operation.error <;> simp [hstatus, herror]
          | queued | executing | undefined => cases poll.cancelled <;> simp [hstatus]

theorem awaitOperation_eq_succeeded_iff {operationId txId : String} {polls : List Poll} :
    awaitOperation operationId polls = .succeeded txId ↔
      ∃ earlier poll later, polls = earlier ++ poll :: later ∧
        (∀ poll ∈ earlier, poll.IsUndecided operationId) ∧
          poll.ReportsSuccess operationId txId := by
  induction polls with
  | nil => simp [awaitOperation]
  | cons poll polls ih => rw [awaitOperation_cons_eq_succeeded_iff, exists_first_cons_iff, ih]

variable {config : EquihashPayoutConfig}

theorem sendPage_eq_paid_iff {replies : PageReplies} {txId : String} :
    sendPage config replies = .paid txId ↔
      ∃ operationId,
        callUnlocked config.walletPassword replies.send replies.walletPassphrase =
          .ok (some operationId) ∧
        operationId ≠ "" ∧ awaitOperation operationId replies.polls = .succeeded txId := by
  rw [sendPage]
  cases callUnlocked config.walletPassword replies.send replies.walletPassphrase with
  | error locked => cases locked <;> simp
  | ok operationId =>
      cases operationId with
      | none => simp [isNullOrEmpty]
      | some operationId =>
          by_cases hempty : operationId = ""
          · simp [isNullOrEmpty, hempty]
          · cases hawait : awaitOperation operationId replies.polls <;>
              simp [isNullOrEmpty, hempty, hawait]

theorem reportsSuccess_iff {replies : PageReplies} :
    replies.ReportsSuccess config ↔ ∃ txId, txId ≠ "" ∧ sendPage config replies = .paid txId := by
  simp only [PageReplies.ReportsSuccess, sendPage_eq_paid_iff, awaitOperation_eq_succeeded_iff]
  constructor
  · rintro ⟨operationId, txId, earlier, poll, later, hcall, hid, htxId, hpolls⟩
    exact ⟨txId, htxId, operationId, hcall, hid, earlier, poll, later, hpolls⟩
  · rintro ⟨txId, htxId, operationId, hcall, hid, earlier, poll, later, hpolls⟩
    exact ⟨operationId, txId, earlier, poll, later, hcall, hid, htxId, hpolls⟩

/-- The loop over the pages goes on behind this one. -/
def GoesOn (config : EquihashPayoutConfig) (replies : PageReplies) : Prop :=
  sendPage config replies = .next ∨ replies.ReportsSuccess config ∧ Commits replies.failure

/-- Each page the loop gets to is remembered: if its operation is carried out, its success is
reported and the database does not fail. -/
def PagesRemembered (config : EquihashPayoutConfig) (replies : Nat → PageReplies) :
    Nat → List (List Balance) → Prop
  | _, [] => True
  | i, page :: rest =>
      notSent config (replies i) page = none →
        ((replies i).executed = true →
          (replies i).ReportsSuccess config ∧ Commits (replies i).failure) ∧
        (GoesOn config (replies i) → PagesRemembered config replies (i + 1) rest)

/-- What the daemon carries out for a page. -/
def executedTransfers (replies : PageReplies) (page : List Balance) : List Transfer :=
  if replies.executed then amounts page else []

section Pages

variable {pool : PoolConfig} {replies : Nat → PageReplies} {i : Nat} {page : List Balance}
  {pages : List (List Balance)} {db : Database} {outcome : PayoutOutcome}

/-- What a page can do: it is not sent, it ends the loop, it is passed, or it is paid. -/
theorem payoutPages_cons
    (h : payoutPages config pool replies i (page :: pages) db = some outcome) :
    (notSent config (replies i) page ≠ none ∧
      ∃ thrown, outcome = .nothingSent db thrown) ∨
    notSent config (replies i) page = none ∧
      ((¬GoesOn config (replies i) ∧
          ∃ thrown, outcome = ⟨executedTransfers (replies i) page, [], db, thrown⟩) ∨
        (sendPage config (replies i) = .next ∧
          ∃ later, payoutPages config pool replies (i + 1) pages db = some later ∧
            outcome = later.after (executedTransfers (replies i) page) []) ∨
        ((replies i).ReportsSuccess config ∧ Commits (replies i).failure ∧
          ∃ txId later, payoutPages config pool replies (i + 1) pages
              (persistEntries pool db (page.map (·, some txId))) = some later ∧
            outcome = later.after (executedTransfers (replies i) page)
              (page.map (·, some txId)))) := by
  rw [payoutPages] at h
  cases hnotSent : notSent config (replies i) page with
  | some pageEnd =>
      refine Or.inl ⟨Option.some_ne_none _, ?_⟩
      rw [hnotSent] at h
      cases pageEnd <;> exact ⟨_, (Option.some.inj h).symm⟩
  | none =>
      refine Or.inr ⟨rfl, ?_⟩
      rw [hnotSent] at h
      simp only at h
      have hends : ∀ {pageEnd}, sendPage config (replies i) = pageEnd → pageEnd ≠ .next →
          (∀ txId, pageEnd ≠ .paid txId) → ¬GoesOn config (replies i) := by
        intro pageEnd hend hnext hpaid hgoes
        cases hgoes with
        | inl heq => exact hnext (hend.symm.trans heq)
        | inr hsuccess =>
            obtain ⟨txId, _, heq⟩ := reportsSuccess_iff.mp hsuccess.1
            exact hpaid txId (hend.symm.trans heq)
      cases hsend : sendPage config (replies i) with
      | stop =>
          rw [hsend] at h
          exact Or.inl ⟨hends hsend (by simp) (by simp), none, (Option.some.inj h).symm⟩
      | waiting =>
          rw [hsend] at h
          cases h
      | threw e =>
          rw [hsend] at h
          exact Or.inl ⟨hends hsend (by simp) (by simp), some e, (Option.some.inj h).symm⟩
      | next =>
          rw [hsend] at h
          obtain ⟨later, hlater, heq⟩ := Option.map_eq_some_iff.mp h
          exact Or.inr (Or.inl ⟨rfl, later, hlater, heq.symm⟩)
      | paid txId =>
          rw [hsend] at h
          simp only at h
          cases hpersist : persistPayments pool (replies i).failure page (some txId) db with
          | error e =>
              rw [hpersist] at h
              refine Or.inl ⟨?_, some e, (Option.some.inj h).symm⟩
              rintro (hnext | ⟨hsuccess, hcommits⟩)
              · rw [hsend] at hnext
                cases hnext
              · obtain ⟨txId', htxId', heq⟩ := reportsSuccess_iff.mp hsuccess
                rw [hsend] at heq
                cases heq
                have hok : persistPayments pool (replies i).failure page (some txId) db = .ok _ :=
                  persistPayments_eq_ok_iff.mpr
                    ⟨by simpa [isNullOrEmpty] using htxId', hcommits, rfl⟩
                rw [hpersist] at hok
                cases hok
          | ok db' =>
              rw [hpersist] at h
              obtain ⟨htxId, hcommits, rfl⟩ := persistPayments_eq_ok_iff.mp hpersist
              obtain ⟨later, hlater, heq⟩ := Option.map_eq_some_iff.mp h
              have hsuccess : (replies i).ReportsSuccess config :=
                reportsSuccess_iff.mpr ⟨txId, by simpa [isNullOrEmpty] using htxId, hsend⟩
              exact Or.inr (Or.inr ⟨hsuccess, hcommits, txId, later, hlater, heq.symm⟩)

theorem address_of_executedTransfers {replies : PageReplies} {transfer : Transfer}
    (h : transfer ∈ executedTransfers replies page) :
    transfer.address ∈ page.map Balance.address := by
  rw [executedTransfers] at h
  split at h
  · obtain ⟨balance, hmem, rfl⟩ := List.mem_map.mp h
    exact List.mem_map_of_mem (List.mem_of_mem_filter hmem)
  · cases h

/-- What is sent and persisted belongs to the pages. -/
theorem address_of_payoutPages
    (h : payoutPages config pool replies i pages db = some outcome) :
    (∀ transfer ∈ outcome.transfers, transfer.address ∈ pages.flatten.map Balance.address) ∧
      ∀ entry ∈ outcome.persisted, entry.1.address ∈ pages.flatten.map Balance.address := by
  induction pages generalizing i db outcome with
  | nil =>
      cases h
      exact ⟨fun _ hmem => (List.not_mem_nil hmem).elim,
        fun _ hmem => (List.not_mem_nil hmem).elim⟩
  | cons page pages ih =>
      rw [List.flatten_cons, List.map_append]
      obtain ⟨_, thrown, rfl⟩ | ⟨_, hcase⟩ := payoutPages_cons h
      · exact ⟨fun _ hmem => (List.not_mem_nil hmem).elim,
          fun _ hmem => (List.not_mem_nil hmem).elim⟩
      · obtain ⟨_, thrown, rfl⟩ | ⟨_, later, hlater, rfl⟩ | ⟨_, _, txId, later, hlater, rfl⟩ :=
          hcase
        · exact ⟨fun transfer hmem =>
              List.mem_append_left _ (address_of_executedTransfers hmem),
            fun _ hmem => (List.not_mem_nil hmem).elim⟩
        · obtain ⟨htransfers, hpersisted⟩ := ih hlater
          constructor
          · intro transfer hmem
            cases List.mem_append.mp hmem with
            | inl hmem => exact List.mem_append_left _ (address_of_executedTransfers hmem)
            | inr hmem => exact List.mem_append_right _ (htransfers transfer hmem)
          · intro entry hmem
            exact List.mem_append_right _ (hpersisted entry hmem)
        · obtain ⟨htransfers, hpersisted⟩ := ih hlater
          constructor
          · intro transfer hmem
            cases List.mem_append.mp hmem with
            | inl hmem => exact List.mem_append_left _ (address_of_executedTransfers hmem)
            | inr hmem => exact List.mem_append_right _ (htransfers transfer hmem)
          · intro entry hmem
            cases List.mem_append.mp hmem with
            | inl hmem =>
                obtain ⟨balance, hbalance, rfl⟩ := List.mem_map.mp hmem
                exact List.mem_append_left _ (List.mem_map_of_mem hbalance)
            | inr hmem => exact List.mem_append_right _ (hpersisted entry hmem)

theorem writesPersisted_payoutPages
    (h : payoutPages config pool replies i pages db = some outcome) :
    WritesPersisted pool db outcome := by
  induction pages generalizing i db outcome with
  | nil =>
      cases h
      rfl
  | cons page pages ih =>
      obtain ⟨_, thrown, rfl⟩ | ⟨_, hcase⟩ := payoutPages_cons h
      · rfl
      · obtain ⟨_, thrown, rfl⟩ | ⟨_, later, hlater, rfl⟩ | ⟨_, _, txId, later, hlater, rfl⟩ :=
          hcase
        · rfl
        · exact (ih hlater).trans rfl
        · refine (ih hlater).trans ?_
          rw [persistEntries, persistEntries, ← List.foldl_append]
          rfl

/-- A page that is not carried out, or whose payment is persisted, is remembered. -/
theorem covers_executedTransfers_nil {replies : PageReplies}
    (hsent : notSent config replies page = none) :
    Covers [] (executedTransfers replies page) ↔ replies.executed = false := by
  have hamounts : amounts page ≠ [] := by
    intro hempty
    rw [notSent, if_pos hempty] at hsent
    cases hsent
  rw [covers_nil_iff, executedTransfers]
  cases replies.executed <;> simp [hamounts]

theorem covers_executedTransfers {replies : PageReplies} (txId : String) :
    Covers (page.map (·, some txId)) (executedTransfers replies page) := by
  intro transfer hmem
  obtain ⟨balance, hbalance, heq⟩ := List.mem_map.mp (address_of_executedTransfers hmem)
  exact ⟨(balance, some txId), List.mem_map_of_mem hbalance, heq⟩

/-- The pages behind one have other addresses. -/
theorem noneForgotten_after_page (first : PageReplies) {entries : List (Balance × Option String)}
    (hdisjoint : (page.map Balance.address).Disjoint (pages.flatten.map Balance.address))
    (h : payoutPages config pool replies i pages db = some outcome)
    (hentries : ∀ entry ∈ entries, entry.1.address ∈ page.map Balance.address) :
    NoneForgotten (outcome.after (executedTransfers first page) entries) ↔
      Covers entries (executedTransfers first page) ∧ NoneForgotten outcome := by
  obtain ⟨htransfers, hpersisted⟩ := address_of_payoutPages h
  apply covers_append_iff hentries
  · exact fun transfer hmem => address_of_executedTransfers hmem
  · exact fun entry hmem hpage => hdisjoint hpage (hpersisted entry hmem)
  · exact fun transfer hmem hpage => hdisjoint hpage (htransfers transfer hmem)

theorem noneForgotten_payoutPages_iff
    (haddresses : (pages.flatten.map Balance.address).Nodup)
    (h : payoutPages config pool replies i pages db = some outcome) :
    NoneForgotten outcome ↔ PagesRemembered config replies i pages := by
  induction pages generalizing i db outcome with
  | nil =>
      cases h
      exact iff_of_true (noneForgotten_nothingSent _ _) trivial
  | cons page pages ih =>
      rw [List.flatten_cons, List.map_append] at haddresses
      obtain ⟨_, hrest, hdisjoint⟩ := List.nodup_append'.mp haddresses
      rw [PagesRemembered]
      obtain ⟨hnotSent, thrown, rfl⟩ | ⟨hsent, hcase⟩ := payoutPages_cons h
      · exact iff_of_true (noneForgotten_nothingSent _ _) fun hsent => absurd hsent hnotSent
      · simp only [hsent, forall_const]
        obtain ⟨hends, thrown, rfl⟩ | ⟨hnext, later, hlater, rfl⟩ |
          ⟨hsuccess, hcommits, txId, later, hlater, rfl⟩ := hcase
        · have hiff : NoneForgotten ⟨executedTransfers (replies i) page, [], db, thrown⟩ ↔
              (replies i).executed = false := covers_executedTransfers_nil hsent
          rw [hiff]
          constructor
          · intro hfalse
            exact ⟨fun htrue => absurd (hfalse.symm.trans htrue) (by decide),
              fun hgoes => absurd hgoes hends⟩
          · rintro ⟨himp, _⟩
            rw [← Bool.not_eq_true]
            exact fun htrue => hends (Or.inr (himp htrue))
        · have hfails : ¬(replies i).ReportsSuccess config := by
            intro hsuccess
            obtain ⟨txId, _, hpaid⟩ := reportsSuccess_iff.mp hsuccess
            cases hnext.symm.trans hpaid
          have hgoes : GoesOn config (replies i) := Or.inl hnext
          have hafter := noneForgotten_after_page (replies i) hdisjoint hlater
            (List.forall_mem_nil _)
          rw [hafter, covers_executedTransfers_nil hsent, ih hrest hlater]
          simp only [hfails, false_and, imp_false, Bool.not_eq_true, hgoes, forall_const]
        · have hpage : ∀ entry ∈ page.map (·, some txId),
              entry.1.address ∈ page.map Balance.address := by
            intro entry hmem
            obtain ⟨balance, hbalance, rfl⟩ := List.mem_map.mp hmem
            exact List.mem_map_of_mem hbalance
          have hgoes : GoesOn config (replies i) := Or.inr ⟨hsuccess, hcommits⟩
          have hafter := noneForgotten_after_page (replies i) hdisjoint hlater hpage
          rw [hafter, ih hrest hlater]
          simp only [covers_executedTransfers, hsuccess, hcommits, true_and, and_self,
            implies_true, hgoes, forall_const]

/-- The pages of the call are remembered. -/
def Remembers (config : EquihashPayoutConfig) (shielding : Option Exception)
    (replies : Nat → PageReplies) (balances : List Balance) : Prop :=
  (config.supportsSendCurrency = false → shielding = none) →
    PagesRemembered config replies 0 (skipTakePages pageSize balances)

variable {shielding : Option Exception} {balances : List Balance}

theorem noneForgotten_payout_iff (haddresses : (balances.map Balance.address).Nodup)
    (h : payout config pool shielding replies balances db = some outcome) :
    NoneForgotten outcome ↔ Remembers config shielding replies balances := by
  have hflatten : (skipTakePages pageSize balances).flatten = balances :=
    flatten_skipTakePages (by decide) balances
  rw [payout] at h
  split at h
  · rename_i e he
    cases h
    refine iff_of_true (noneForgotten_nothingSent _ _) fun hshielding => ?_
    split at he
    · cases he
    · rename_i hsupports
      rw [hshielding (by simpa using hsupports)] at he
      cases he
  · rename_i hnone
    have hshielding : config.supportsSendCurrency = false → shielding = none := by
      intro hsupports
      simpa [hsupports] using hnone
    rw [noneForgotten_payoutPages_iff (by rwa [hflatten]) h, Remembers]
    exact ⟨fun hpages _ => hpages, fun hpages => hpages hshielding⟩

theorem writesPersisted_payout
    (h : payout config pool shielding replies balances db = some outcome) :
    WritesPersisted pool db outcome := by
  rw [payout] at h
  split at h
  · cases h
    rfl
  · exact writesPersisted_payoutPages h

end Pages

end EquihashPayoutHandler

end Miningcore
