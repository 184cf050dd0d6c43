import Miningcore.Payments.PaymentPersistence
import Miningcore.Foundation.DecimalRounding

/-!
# Transfers of a payout

A payout call is known by the transfers the daemon has accepted, by the entries
that were persisted for them, and by how it ended.
-/

namespace Miningcore

open Foundation PayoutHandlerBase

/-- What the daemon was told to send to an address. -/
structure Transfer where
  address : String
  amount : ℚ
deriving DecidableEq

/-- The end of a payout call. The persisted entries are those of a committed transaction. -/
structure PayoutOutcome where
  transfers : List Transfer
  persisted : List (Balance × Option String)
  db : Database
  thrown : Option Exception
deriving DecidableEq

namespace PayoutOutcome

/-- A call that ends before the daemon has accepted anything. -/
def nothingSent (db : Database) (thrown : Option Exception) : PayoutOutcome := ⟨[], [], db, thrown⟩

/-- The rest of a call after a transaction was tried for accepted transfers. -/
def afterPersist (transfers : List Transfer) (entries : List (Balance × Option String))
    (db : Database) : Except Exception Database → PayoutOutcome
  | .ok db' => ⟨transfers, entries, db', none⟩
  | .error e => ⟨transfers, [], db, some e⟩

@[simp] theorem transfers_afterPersist (transfers : List Transfer)
    (entries : List (Balance × Option String)) (db : Database)
    (result : Except Exception Database) :
    (afterPersist transfers entries db result).transfers = transfers := by
  cases result <;> rfl

/-- What was sent and persisted earlier in the same call comes first. -/
def after (transfers : List Transfer) (persisted : List (Balance × Option String))
    (outcome : PayoutOutcome) : PayoutOutcome :=
  { outcome with
    transfers := transfers ++ outcome.transfers
    persisted := persisted ++ outcome.persisted }

@[simp] theorem transfers_after (transfers : List Transfer)
    (persisted : List (Balance × Option String)) (outcome : PayoutOutcome) :
    (outcome.after transfers persisted).transfers = transfers ++ outcome.transfers := rfl

@[simp] theorem persisted_after (transfers : List Transfer)
    (persisted : List (Balance × Option String)) (outcome : PayoutOutcome) :
    (outcome.after transfers persisted).persisted = persisted ++ outcome.persisted := rfl

end PayoutOutcome

/-- `Math.Round` of a decimal, which has at most 28 places. -/
def mathRound (places : ℤ) (x : ℚ) : Except Exception ℚ :=
  if places < 0 ∨ 28 < places then .error (.argument "decimals")
  else .ok (roundDecimals places.toNat x)

/-- A cast of a decimal to an unsigned 64-bit integer truncates, and throws outside its range. -/
def toULong (x : ℚ) : Except Exception ℤ :=
  let value := if 0 ≤ x then ⌊x⌋ else ⌈x⌉
  if 0 ≤ value ∧ value < 2 ^ 64 then .ok value else .error (.overflow "UInt64")

/-- The dictionary of amounts by address, rounded in some way, of the balances above zero. -/
def payableAmounts (round : ℚ → Except Exception ℚ) :
    List Balance → Except Exception (List (String × ℚ))
  | [] => .ok []
  | balance :: rest =>
      if 0 < balance.amount then
        match round balance.amount, payableAmounts round rest with
        | .ok amount, .ok amounts =>
            if balance.address ∈ amounts.map Prod.fst then
              .error (.argument "An item with the same key has already been added.")
            else .ok ((balance.address, amount) :: amounts)
        | .error e, _ => .error e
        | _, .error e => .error e
      else payableAmounts round rest

theorem payableAmounts_ok {round : ℚ → Except Exception ℚ} {f : ℚ → ℚ}
    (hround : ∀ x y, round x = .ok y → y = f x) {balances : List Balance}
    {amounts : List (String × ℚ)} (h : payableAmounts round balances = .ok amounts) :
    amounts = (balances.filter fun balance => 0 < balance.amount).map
        (fun balance => (balance.address, f balance.amount)) ∧
      (amounts.map Prod.fst).Nodup := by
  induction balances generalizing amounts with
  | nil =>
      cases h
      exact ⟨rfl, List.nodup_nil⟩
  | cons balance balances ih =>
      rw [payableAmounts] at h
      split at h
      · rename_i hpos
        split at h
        · rename_i amount rest hamount hrest
          split at h
          · cases h
          · rename_i hkey
            cases h
            obtain ⟨heq, hnodup⟩ := ih hrest
            refine ⟨?_, List.nodup_cons.mpr ⟨hkey, hnodup⟩⟩
            rw [List.filter_cons_of_pos (by simpa using hpos), List.map_cons, ← heq,
              hround _ _ hamount]
        · cases h
        · cases h
      · rename_i hpos
        rw [List.filter_cons_of_neg (by simpa using hpos)]
        exact ih h

/-- Addresses that occur once cannot clash. -/
theorem payableAmounts_eq_ok {round : ℚ → Except Exception ℚ} {f : ℚ → ℚ}
    (hround : ∀ x, round x = .ok (f x)) {balances : List Balance}
    (haddresses : (balances.map Balance.address).Nodup) :
    payableAmounts round balances =
      .ok ((balances.filter fun balance => 0 < balance.amount).map fun balance =>
        (balance.address, f balance.amount)) := by
  induction balances with
  | nil => rfl
  | cons balance balances ih =>
      rw [List.map_cons, List.nodup_cons] at haddresses
      rw [payableAmounts, ih haddresses.2, hround]
      split
      · rename_i hpos
        rw [List.filter_cons_of_pos (by rwa [decide_eq_true_eq])]
        apply if_neg
        intro hmem
        apply haddresses.1
        rw [List.map_map] at hmem
        exact (List.filter_sublist.map Balance.address).subset hmem
      · rename_i hpos
        rw [List.filter_cons_of_neg (by rwa [decide_eq_true_eq])]

theorem eq_roundDecimals_of_mathRound {places : ℤ} (x y : ℚ) (h : mathRound places x = .ok y) :
    y = roundDecimals places.toNat x := by
  rw [mathRound] at h
  split at h
  · cases h
  · cases h
    rfl

/-- The amounts of `Parallel.ForEachAsync` whose worker starts, when the token is cancelled after
some of them. -/
def taken {α : Type} (cancelledAfter : Option Nat) (l : List α) : List α :=
  match cancelledAfter with
  | none => l
  | some k => l.take k

theorem taken_sublist {α : Type} (cancelledAfter : Option Nat) (l : List α) :
    (taken cancelledAfter l).Sublist l := by
  cases cancelledAfter with
  | none => exact List.Sublist.refl l
  | some k => exact List.take_sublist k l

/-- `(int) Math.Ceiling((double) length / pageSize)`. Without elements the quotient by zero is not a
number, which is cast to 0, else it is infinite, which is cast to the largest `int`. -/
def pageCount (pageSize : Int) (length : Nat) : Nat :=
  match pageSize with
  | .ofNat 0 => if length = 0 then 0 else 2 ^ 31 - 1
  | .ofNat (n + 1) => (length + n) / (n + 1)
  | .negSucc _ => 0

/-- The pages of `Skip` and `Take`. -/
def skipTakePages {α : Type} (pageSize : Int) (l : List α) : List (List α) :=
  (List.range (pageCount pageSize l.length)).map fun i =>
    (l.drop (i * pageSize.toNat)).take pageSize.toNat

theorem pageCount_natCast {pageSize : Nat} (hs : 0 < pageSize) (length : Nat) :
    pageCount pageSize length = (length + pageSize - 1) / pageSize := by
  obtain ⟨n, rfl⟩ : ∃ n, pageSize = n + 1 := ⟨pageSize - 1, by omega⟩
  rfl

/-- The first pages are the first elements, in order. -/
theorem flatten_pages {α : Type} (pageSize : Nat) (l : List α) (n : Nat) :
    ((List.range n).map fun i => (l.drop (i * pageSize)).take pageSize).flatten =
      l.take (n * pageSize) := by
  induction n with
  | zero => simp
  | succ n ih =>
      rw [List.range_succ, List.map_append, List.flatten_append, ih, Nat.succ_mul, List.take_add]
      simp

/-- The pages have all the elements. -/
theorem flatten_skipTakePages {α : Type} {pageSize : Nat} (hs : 0 < pageSize) (l : List α) :
    (skipTakePages pageSize l).flatten = l := by
  have hlength : l.length ≤ (l.length + pageSize - 1) / pageSize * pageSize := by
    have hdiv := Nat.div_add_mod (l.length + pageSize - 1) pageSize
    have hmod := Nat.mod_lt (l.length + pageSize - 1) hs
    rw [Nat.mul_comm]
    omega
  rw [skipTakePages, pageCount_natCast hs, Int.toNat_natCast, flatten_pages,
    List.take_of_length_le hlength]

theorem flatten_skipTakePages_sublist {α : Type} (pageSize : Int) (l : List α) :
    (skipTakePages pageSize l).flatten.Sublist l := by
  rw [skipTakePages, flatten_pages]
  exact List.take_sublist _ l

/-- Only a page size of zero makes empty pages. -/
theorem ne_nil_of_mem_skipTakePages {α : Type} {pageSize : Int} (hs : pageSize ≠ 0)
    {l page : List α} (h : page ∈ skipTakePages pageSize l) : page ≠ [] := by
  obtain ⟨i, hi, rfl⟩ := List.mem_map.mp h
  rw [List.mem_range] at hi
  match pageSize, hs, hi with
  | .ofNat (n + 1), _, hi =>
      have hmul : (i + 1) * (n + 1) ≤ l.length + n := (Nat.le_div_iff_mul_le n.succ_pos).mp hi
      have hstart : i * (n + 1) < l.length := by
        rw [Nat.succ_mul] at hmul
        omega
      apply List.ne_nil_of_length_pos
      rw [List.length_take, List.length_drop]
      simp only [Int.ofNat_eq_natCast, Int.toNat_natCast]
      omega
  | .negSucc _, _, hi => exact absurd hi (Nat.not_lt_zero i)

/-! ## The three amounts of a payment -/

/-- The amount sent to an address is the amount its balance lost and the only payment recorded for
it, unless it belongs to a reward recipient. -/
def AgreesAt (pool : PoolConfig) (db db' : Database) (transfer : Transfer) : Prop :=
  BalanceRepository.getBalance db pool.id transfer.address -
      BalanceRepository.getBalance db' pool.id transfer.address = transfer.amount ∧
    (((db'.payments.drop db.payments.length).filter fun payment =>
        payment.address = transfer.address).map Payment.amount) =
      if pool.rewardRecipients.all fun recipient => recipient.address ≠ transfer.address then
        [transfer.amount]
      else []

/-- The amounts agree wherever a transfer succeeds. -/
def AmountsAgree (pool : PoolConfig) (db : Database) (outcome : PayoutOutcome) : Prop :=
  ∀ transfer ∈ outcome.transfers,
    (∃ entry ∈ outcome.persisted, entry.1.address = transfer.address) →
      AgreesAt pool db outcome.db transfer

/-- For an address that occurs once, the amounts agree when what was sent is what was persisted. -/
theorem agreesAt_iff {pool : PoolConfig} {db : Database} {entries : List (Balance × Option String)}
    (h : (entries.map fun entry => entry.1.address).Nodup) {entry : Balance × Option String}
    (hmem : entry ∈ entries) (hconfirmation : isNullOrEmpty entry.2 = false) {transfer : Transfer}
    (haddress : entry.1.address = transfer.address) :
    AgreesAt pool db (persistEntries pool db entries) transfer ↔
      transfer.amount = entry.1.amount := by
  have hreset : BalanceRepository.getBalance db pool.id transfer.address -
      BalanceRepository.getBalance (persistEntries pool db entries) pool.id transfer.address =
        entry.1.amount := by
    rw [getBalance_persistEntries, sub_sub_cancel, ← haddress, resetAmount_eq h hmem]
  have hpayments : (((persistEntries pool db entries).payments.drop
      db.payments.length).filter fun payment => payment.address = transfer.address) =
        (paymentOf pool entry).toList := by
    rw [payments_persistEntries, List.drop_left, ← haddress, filterMap_paymentOf_filter h hmem]
  rw [AgreesAt, hreset, hpayments, paymentOf, isRecorded, hconfirmation, haddress]
  constructor
  · exact fun h => h.1.symm
  · intro hamount
    refine ⟨hamount.symm, ?_⟩
    rw [hamount]
    simp only [Bool.not_false, Bool.true_and]
    split <;> rfl

end Miningcore

/-!
# Runs of payouts

Between two payouts, settled blocks credit balances. Each payout is offered the
balances over the threshold. A call that never returns ends the run.
-/

namespace Miningcore

open Foundation PayoutHandlerBase BalanceRepository

/-- The credits since the last payout, and everything the next one depends on. -/
structure PayoutCycle (Call : Type) where
  credits : List (String × ℚ)
  call : Call

/-- A payout that has returned. -/
structure PayoutRecord (Call : Type) where
  before : Database
  balances : List Balance
  call : Call
  outcome : PayoutOutcome

/-- No two balances of the table have the same key. -/
def UniqueBalances (db : Database) : Prop :=
  (db.balances.map fun balance => (balance.poolId, balance.address)).Nodup

instance (db : Database) : Decidable (UniqueBalances db) :=
  inferInstanceAs (Decidable (List.Nodup _))

/-- A payout call writes what it has persisted, and nothing else. -/
def WritesPersisted (pool : PoolConfig) (db : Database) (outcome : PayoutOutcome) : Prop :=
  outcome.db = persistEntries pool db outcome.persisted

section WritesPersisted

variable {pool : PoolConfig} {db : Database}

theorem writesPersisted_afterPersist {transfers : List Transfer}
    {entries : List (Balance × Option String)} {result : Except Exception Database}
    (h : ∀ db', result = .ok db' → persistEntries pool db entries = db') :
    WritesPersisted pool db (.afterPersist transfers entries db result) := by
  cases result with
  | error e => rfl
  | ok db' => exact (h db' rfl).symm

theorem writesPersisted_persistPayments (failure : Failures) (transfers : List Transfer)
    (balances : List Balance) (txId : Option String) :
    WritesPersisted pool db (.afterPersist transfers (balances.map (·, txId)) db
      (persistPayments pool failure balances txId db)) :=
  writesPersisted_afterPersist fun _ h => (persistPayments_eq_ok_iff.mp h).2.2

theorem writesPersisted_persistPaymentsByBalance (failure : Failures) (transfers : List Transfer)
    (entries : List (Balance × Option String)) :
    WritesPersisted pool db (.afterPersist transfers entries db
      (persistPaymentsByBalance pool failure entries db)) :=
  writesPersisted_afterPersist fun _ h => (persistPaymentsByBalance_eq_ok_iff.mp h).2.2

end WritesPersisted

section Runs

variable {Call : Type} (payout : Call → List Balance → Database → Option PayoutOutcome)
  (pool : PoolConfig)

def creditBalances (db : Database) (credits : List (String × ℚ)) : Database :=
  credits.foldl (fun db credit => addAmount db pool.id credit.1 credit.2 (.rewardForBlock 0)) db

/-- The payouts of a run of cycles. -/
def payoutRun : List (PayoutCycle Call) → Database → List (PayoutRecord Call)
  | [], _ => []
  | cycle :: rest, db =>
      let db := creditBalances pool db cycle.credits
      let balances := getPoolBalancesOverThreshold db pool.id pool.minimumPayment
      if balances.length = 0 then payoutRun rest db
      else match payout cycle.call balances db with
        | none => []
        | some outcome => ⟨db, balances, cycle.call, outcome⟩ :: payoutRun rest outcome.db

variable {payout pool}

theorem uniqueBalances_addAmount {db : Database} (h : UniqueBalances db) (poolId address : String)
    (amount : ℚ) (usage : Usage) : UniqueBalances (addAmount db poolId address amount usage) := by
  have hkeys : ∀ balances : List Balance, (balances.map fun balance =>
      if balance.poolId = poolId ∧ balance.address = address then
        { balance with amount := balance.amount + amount } else balance).map
          (fun balance => (balance.poolId, balance.address)) =
      balances.map fun balance => (balance.poolId, balance.address) := by
    intro balances
    rw [List.map_map]
    apply List.map_congr_left
    intro balance _
    simp only [Function.comp_apply]
    split <;> rfl
  rw [UniqueBalances, addAmount, upsertAmount]
  split
  · rw [hkeys]
    exact h
  · rename_i hany
    rw [List.map_append, List.nodup_append]
    refine ⟨h, List.nodup_singleton _, ?_⟩
    rintro key hkey _ hnew rfl
    obtain ⟨balance, hbalance, heq⟩ := List.mem_map.mp hkey
    apply hany
    rw [List.any_eq_true]
    refine ⟨balance, hbalance, ?_⟩
    simp only [List.map_cons, List.map_nil, List.mem_singleton] at hnew
    rw [hnew, Prod.mk.injEq] at heq
    simpa using heq

theorem uniqueBalances_creditBalances {db : Database} (h : UniqueBalances db)
    (credits : List (String × ℚ)) : UniqueBalances (creditBalances pool db credits) := by
  induction credits generalizing db with
  | nil => exact h
  | cons credit credits ih => exact ih (uniqueBalances_addAmount h _ _ _ _)

theorem uniqueBalances_persistEntries {db : Database} (h : UniqueBalances db)
    (entries : List (Balance × Option String)) :
    UniqueBalances (persistEntries pool db entries) := by
  induction entries generalizing db with
  | nil => exact h
  | cons entry entries ih =>
      apply ih
      rw [persistPayment]
      apply uniqueBalances_addAmount
      split <;> exact h

/-- The balances of one pool have different addresses. -/
theorem nodup_address_of_uniqueBalances {db : Database} (h : UniqueBalances db) (minimum : ℚ) :
    ((getPoolBalancesOverThreshold db pool.id minimum).map Balance.address).Nodup := by
  have hsub : (getPoolBalancesOverThreshold db pool.id minimum).Sublist db.balances :=
    List.filter_sublist
  have hkeys : ((getPoolBalancesOverThreshold db pool.id minimum).map fun balance =>
      (balance.poolId, balance.address)).Nodup :=
    h.sublist (hsub.map fun balance : Balance => (balance.poolId, balance.address))
  have hpool : ∀ balance ∈ getPoolBalancesOverThreshold db pool.id minimum,
      (balance.poolId, balance.address) = (Prod.mk pool.id ∘ Balance.address) balance :=
    fun balance hmem =>
      Prod.ext (of_decide_eq_true (List.mem_filter.mp hmem).2).1 rfl
  rw [List.map_congr_left hpool, ← List.map_map] at hkeys
  exact hkeys.of_map

/-- What is known of every payout of a run. -/
theorem of_mem_payoutRun
    (hwrites : ∀ call balances db outcome, payout call balances db = some outcome →
      WritesPersisted pool db outcome)
    {cycles : List (PayoutCycle Call)} {db : Database} (h : UniqueBalances db)
    {record : PayoutRecord Call} (hmem : record ∈ payoutRun payout pool cycles db) :
    (record.balances.map Balance.address).Nodup ∧
      payout record.call record.balances record.before = some record.outcome := by
  induction cycles generalizing db with
  | nil => cases hmem
  | cons cycle cycles ih =>
      have hcredited : UniqueBalances (creditBalances pool db cycle.credits) :=
        uniqueBalances_creditBalances h cycle.credits
      rw [payoutRun] at hmem
      split at hmem
      · exact ih hcredited hmem
      · split at hmem
        · cases hmem
        · rename_i outcome hpayout
          cases List.mem_cons.mp hmem with
          | inl heq =>
              subst heq
              exact ⟨nodup_address_of_uniqueBalances hcredited _, hpayout⟩
          | inr hrest =>
              apply ih _ hrest
              rw [hwrites _ _ _ _ hpayout]
              exact uniqueBalances_persistEntries hcredited _

end Runs

end Miningcore
