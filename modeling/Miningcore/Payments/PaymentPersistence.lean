import Miningcore.Payments.Abstractions
import Mathlib.Algebra.BigOperators.Group.List.Basic
import Mathlib.Tactic.Abel

/-!
# Persisting payments

What every payout handler does once the daemon has accepted a transfer: it
records the payments and resets the balances in one transaction, which is
retried as long as the database fails.
-/

namespace Miningcore

open Foundation

/-- An error a daemon replies with, or the one a call that fails otherwise is given. -/
structure JsonRpcError where
  code : Int
  message : String := ""
deriving DecidableEq

/-- The reply to a call. Calls do not throw: what they catch becomes an error with code -500. -/
structure RpcResponse (α : Type) where
  response : Option α
  error : Option JsonRpcError := none
deriving DecidableEq

def isNullOrEmpty (text : Option String) : Bool := text.getD "" = ""

/-- The exceptions after which a transaction is tried again. -/
def Exception.isTransient : Exception → Bool
  | .db | .timeout => true
  | _ => false

/-- Runs an action that fails as given, with that many retries left. -/
def executeWithRetries (failure : Nat → Option Exception) : Nat → Nat → Except Exception Unit
  | 0, attempt =>
      match failure attempt with
      | none => .ok ()
      | some e => .error e
  | retries + 1, attempt =>
      match failure attempt with
      | none => .ok ()
      | some e =>
          if e.isTransient then executeWithRetries failure retries (attempt + 1) else .error e

namespace PayoutHandlerBase

def retryCount : Nat := 8

/-- The exceptions of the attempts at one transaction. -/
abbrev Failures := Nat → Option Exception

/-- The transaction is committed by one of its attempts. -/
def Commits (failure : Failures) : Prop := executeWithRetries failure retryCount 0 = .ok ()

instance (failure : Failures) : Decidable (Commits failure) := inferInstanceAs (Decidable (_ = _))

section Source

variable (pool : PoolConfig)

/-- A payment is recorded, except to a reward recipient. -/
def isRecorded (balance : Balance) (transactionConfirmation : Option String) : Bool :=
  !isNullOrEmpty transactionConfirmation &&
    pool.rewardRecipients.all fun recipient => recipient.address ≠ balance.address

/-- The body of the loop over the balances: the payment is recorded and the balance reset. -/
def persistPayment (db : Database) (entry : Balance × Option String) : Database :=
  let (balance, transactionConfirmation) := entry
  let db := if isRecorded pool balance transactionConfirmation then
      { db with
        payments := db.payments ++ [{
          poolId := pool.id
          coin := pool.coinSymbol
          address := balance.address
          amount := balance.amount
          transactionConfirmationData := transactionConfirmation.getD "" }] }
    else db
  BalanceRepository.addAmount db pool.id balance.address (-balance.amount) .balanceReset

def persistEntries (db : Database) (entries : List (Balance × Option String)) : Database :=
  entries.foldl (persistPayment pool) db

/-- The overload for balances that were paid by one transaction. -/
def persistPayments (failure : Failures) (balances : List Balance)
    (transactionConfirmation : Option String) (db : Database) : Except Exception Database :=
  if isNullOrEmpty transactionConfirmation then
    .error (.argument "!string.IsNullOrEmpty(transactionConfirmation)")
  else match executeWithRetries failure retryCount 0 with
    | .error e => .error e
    | .ok () => .ok (persistEntries pool db (balances.map (·, transactionConfirmation)))

/-- The overload for balances that were paid by a transaction each. -/
def persistPaymentsByBalance (failure : Failures) (balances : List (Balance × Option String))
    (db : Database) : Except Exception Database :=
  if balances.length = 0 then .error (.argument "balances.Count > 0")
  else match executeWithRetries failure retryCount 0 with
    | .error e => .error e
    | .ok () => .ok (persistEntries pool db balances)

end Source

/-! ## What is persisted -/

variable {pool : PoolConfig} {failure : Failures} {db : Database}

theorem persistPayments_eq_ok_iff {balances : List Balance}
    {transactionConfirmation : Option String} {db' : Database} :
    persistPayments pool failure balances transactionConfirmation db = .ok db' ↔
      isNullOrEmpty transactionConfirmation = false ∧ Commits failure ∧
        persistEntries pool db (balances.map (·, transactionConfirmation)) = db' := by
  rw [persistPayments, Commits]
  cases isNullOrEmpty transactionConfirmation with
  | true => simp
  | false => cases executeWithRetries failure retryCount 0 <;> simp

theorem persistPaymentsByBalance_eq_ok_iff {balances : List (Balance × Option String)}
    {db' : Database} :
    persistPaymentsByBalance pool failure balances db = .ok db' ↔
      balances ≠ [] ∧ Commits failure ∧ persistEntries pool db balances = db' := by
  rw [persistPaymentsByBalance, Commits]
  cases balances with
  | nil => simp
  | cons entry balances => cases executeWithRetries failure retryCount 0 <;> simp

end PayoutHandlerBase

namespace BalanceRepository

/-- A write changes the balance of its own key only. -/
theorem find?_upsertAmount (balances : List Balance) (poolId address : String) (amount : ℚ)
    (poolId' address' : String) :
    (((upsertAmount balances poolId address amount).find? fun balance =>
        balance.poolId = poolId' ∧ balance.address = address').map Balance.amount).getD 0 =
      ((balances.find? fun balance =>
        balance.poolId = poolId' ∧ balance.address = address').map Balance.amount).getD 0 +
        if poolId = poolId' ∧ address = address' then amount else 0 := by
  rw [upsertAmount]
  split
  · rename_i hany
    -- the update leaves the key of every row as it is
    have hkeys : (fun balance : Balance => decide (balance.poolId = poolId' ∧
          balance.address = address')) ∘ (fun balance : Balance =>
            if balance.poolId = poolId ∧ balance.address = address then
              { balance with amount := balance.amount + amount } else balance) =
        fun balance => decide (balance.poolId = poolId' ∧ balance.address = address') := by
      funext balance
      simp only [Function.comp_apply]
      split <;> rfl
    rw [List.find?_map, hkeys]
    cases hfind : balances.find? fun balance =>
        decide (balance.poolId = poolId' ∧ balance.address = address') with
    | none =>
        have hne : ¬(poolId = poolId' ∧ address = address') := by
          rintro ⟨rfl, rfl⟩
          obtain ⟨row, hrow, hmatch⟩ := List.any_eq_true.mp hany
          exact List.find?_eq_none.mp hfind row hrow hmatch
        simp [hne]
    | some row =>
        obtain ⟨hpool, haddress⟩ : row.poolId = poolId' ∧ row.address = address' := by
          simpa using List.find?_some hfind
        by_cases heq : poolId = poolId' ∧ address = address'
        · simp [hpool, haddress, heq]
        · have hne : ¬(poolId' = poolId ∧ address' = address) := fun h => heq ⟨h.1.symm, h.2.symm⟩
          simp [hpool, haddress, heq, hne]
  · rename_i hany
    rw [List.find?_append]
    by_cases heq : poolId = poolId' ∧ address = address'
    · have hnone : balances.find? (fun balance =>
          decide (balance.poolId = poolId' ∧ balance.address = address')) = none := by
        rw [List.find?_eq_none]
        intro row hrow hmatch
        apply hany
        rw [List.any_eq_true]
        exact ⟨row, hrow, heq.1 ▸ heq.2 ▸ hmatch⟩
      rw [hnone]
      simp [heq]
    · cases balances.find? fun balance =>
          decide (balance.poolId = poolId' ∧ balance.address = address') <;> simp [heq]

/-- A credit changes the balance of its address only. -/
theorem getBalance_addAmount (db : Database) (poolId address : String) (amount : ℚ)
    (usage : Usage) (other : String) :
    getBalance (addAmount db poolId address amount usage) poolId other =
      getBalance db poolId other + if address = other then amount else 0 := by
  have hwrite := find?_upsertAmount db.balances poolId address amount poolId other
  simp only [true_and] at hwrite
  exact hwrite

end BalanceRepository

namespace PayoutHandlerBase

variable {pool : PoolConfig}

/-- What the entries reset of the balance of an address. -/
def resetAmount (entries : List (Balance × Option String)) (address : String) : ℚ :=
  ((entries.filter fun entry => entry.1.address = address).map fun entry => entry.1.amount).sum

theorem getBalance_persistEntries (entries : List (Balance × Option String)) (db : Database)
    (address : String) :
    BalanceRepository.getBalance (persistEntries pool db entries) pool.id address =
      BalanceRepository.getBalance db pool.id address - resetAmount entries address := by
  induction entries generalizing db with
  | nil => simp [persistEntries, resetAmount]
  | cons entry entries ih =>
      have hstep : BalanceRepository.getBalance (persistPayment pool db entry) pool.id address =
          BalanceRepository.getBalance db pool.id address -
            if entry.1.address = address then entry.1.amount else 0 := by
        rw [persistPayment, BalanceRepository.getBalance_addAmount, sub_eq_add_neg]
        congr 1
        · split <;> rfl
        · split <;> simp
      rw [persistEntries, List.foldl_cons, ← persistEntries, ih, hstep, resetAmount, resetAmount]
      by_cases h : entry.1.address = address
      · simp [h, sub_sub]
      · simp [h]

/-- The payment recorded for an entry. -/
def paymentOf (pool : PoolConfig) (entry : Balance × Option String) : Option Payment :=
  if isRecorded pool entry.1 entry.2 then
    some {
      poolId := pool.id
      coin := pool.coinSymbol
      address := entry.1.address
      amount := entry.1.amount
      transactionConfirmationData := entry.2.getD "" }
  else none

theorem payments_persistEntries (entries : List (Balance × Option String)) (db : Database) :
    (persistEntries pool db entries).payments =
      db.payments ++ entries.filterMap (paymentOf pool) := by
  induction entries generalizing db with
  | nil => simp [persistEntries]
  | cons entry entries ih =>
      have hstep : (persistPayment pool db entry).payments =
          db.payments ++ (paymentOf pool entry).toList := by
        simp only [persistPayment, paymentOf, BalanceRepository.addAmount]
        split <;> simp
      rw [persistEntries, List.foldl_cons, ← persistEntries, ih, hstep, List.append_assoc]
      cases h : paymentOf pool entry <;> simp [h]

/-- Addresses that occur once are reset by their own entry. -/
theorem resetAmount_eq {entries : List (Balance × Option String)}
    (h : (entries.map fun entry => entry.1.address).Nodup) {entry : Balance × Option String}
    (hmem : entry ∈ entries) : resetAmount entries entry.1.address = entry.1.amount := by
  rw [resetAmount, filter_eq_singleton h hmem]
  simp

theorem address_of_paymentOf {entry : Balance × Option String} {payment : Payment}
    (h : paymentOf pool entry = some payment) :
    payment.address = entry.1.address ∧ payment.amount = entry.1.amount := by
  rw [paymentOf] at h
  split at h
  · cases h
    exact ⟨rfl, rfl⟩
  · cases h

/-- The payments recorded to an address that occurs once. -/
theorem filterMap_paymentOf_filter {entries : List (Balance × Option String)}
    (h : (entries.map fun entry => entry.1.address).Nodup) {entry : Balance × Option String}
    (hmem : entry ∈ entries) :
    (entries.filterMap (paymentOf pool)).filter
        (fun payment => payment.address = entry.1.address) = (paymentOf pool entry).toList := by
  have hcomm : ∀ entries : List (Balance × Option String),
      (entries.filterMap (paymentOf pool)).filter
          (fun payment => payment.address = entry.1.address) =
        (entries.filter fun other => other.1.address = entry.1.address).filterMap
          (paymentOf pool) := by
    intro entries
    induction entries with
    | nil => rfl
    | cons other entries ih =>
        rw [List.filterMap_cons, List.filter_cons]
        cases hpayment : paymentOf pool other with
        | none =>
            rw [ih]
            split <;> simp [hpayment]
        | some payment =>
            rw [List.filter_cons, (address_of_paymentOf hpayment).1, ih]
            split <;> simp [hpayment]
  rw [hcomm, filter_eq_singleton h hmem]
  cases hpayment : paymentOf pool entry <;> simp [hpayment]

end PayoutHandlerBase

end Miningcore
