import Mathlib.Logic.Relation
import Miningcore.Foundation.DecimalRounding
import Miningcore.Payments.Transfers

/-!
# The ledger of balance changes

Every change of a balance is recorded in a second table by a statement of its
own. A transaction makes any number of changes; it is committed at its end, or
rolled back at any point before.

## Implementation notes

Amounts are stored with twelve decimal places: the database rounds what is
written to a column, halfway away from zero, and fails when it does not fit.
-/

namespace Miningcore

open Foundation Relation

/-- What a `decimal(28,12)` column makes of a number. -/
@[irreducible] def columnValue (x : ℚ) : ℚ := roundHalfAway (x * 10 ^ 12) / 10 ^ 12

/-- The stored number has at most sixteen digits in front of the point. -/
@[irreducible] def fitsColumn (x : ℚ) : Bool := decide (|columnValue x| < 10 ^ 16)

namespace BalanceRepository

/-- The arguments of a call of `AddAmountAsync`. -/
structure AddAmount where
  poolId : String
  address : String
  amount : ℚ
  usage : Usage
deriving DecidableEq

/-- The statements of `AddAmountAsync`; the last one depends on the row the second one has found. -/
inductive Statement
  | insertChange
  | selectBalance
  | writeBalance (balance : Option Balance)
deriving DecidableEq

variable (db : Database) (call : AddAmount)

def isRowOf (balance : Balance) : Bool :=
  decide (balance.poolId = call.poolId ∧ balance.address = call.address)

/-- `UPDATE balances SET amount = amount + @amount`. -/
def updatedRow (balance : Balance) : Balance :=
  if isRowOf call balance then
    { balance with amount := columnValue (balance.amount + call.amount) }
  else balance

/-- Executes a statement, unless it fails. The second result is the next statement of the call. -/
def execute : Statement → Option (Database × Option Statement)
  | .insertChange =>
      if fitsColumn call.amount then
        some ({ db with
          balanceChanges := db.balanceChanges ++
            [⟨call.poolId, call.address, columnValue call.amount, call.usage⟩] },
          some .selectBalance)
      else none
  | .selectBalance => some (db, some (.writeBalance (db.balances.find? (isRowOf call))))
  | .writeBalance none =>
      if fitsColumn call.amount then
        some ({ db with
          balances := db.balances ++ [⟨call.poolId, call.address, columnValue call.amount⟩] },
          none)
      else none
  | .writeBalance (some _) =>
      if (db.balances.filter (isRowOf call)).all
          fun balance => fitsColumn (balance.amount + call.amount) then
        some ({ db with balances := db.balances.map (updatedRow call) }, none)
      else none

end BalanceRepository

open BalanceRepository

/-- The database between transactions, or a transaction with its next statement and the calls
that are left, the current one first. -/
inductive TxState
  | idle (db : Database)
  | running (before db : Database) (statement : Statement) (calls : List AddAmount)

namespace TxState

/-- What other connections see. -/
def committed : TxState → Database
  | idle db => db
  | running before _ _ _ => before

end TxState

/-- The steps of `RunTx`. -/
inductive TxStep : TxState → TxState → Prop
  | begin (db : Database) (calls : List AddAmount) :
      TxStep (.idle db) (.running db db .insertChange calls)
  | statement {before db db' : Database} {statement next : Statement} {call : AddAmount}
      {calls : List AddAmount} (h : execute db call statement = some (db', some next)) :
      TxStep (.running before db statement (call :: calls))
        (.running before db' next (call :: calls))
  | last {before db db' : Database} {statement : Statement} {call : AddAmount}
      {calls : List AddAmount} (h : execute db call statement = some (db', none)) :
      TxStep (.running before db statement (call :: calls))
        (.running before db' .insertChange calls)
  | commit (before db : Database) : TxStep (.running before db .insertChange []) (.idle db)
  | rollback (before db : Database) (statement : Statement) (calls : List AddAmount) :
      TxStep (.running before db statement calls) (.idle before)

/-- The sum of the changes recorded for a key. -/
def changeSum (db : Database) (poolId address : String) : ℚ :=
  ((db.balanceChanges.filter fun change => change.poolId = poolId ∧ change.address = address).map
    BalanceChange.amount).sum

/-- Every balance is the sum of its changes. -/
def Balanced (db : Database) : Prop :=
  ∀ poolId address, getBalance db poolId address = changeSum db poolId address

/-- An amount halfway between two numbers of the column is added to no row on whose other side of
zero the sum is. -/
def RoundsAlike (db : Database) (call : AddAmount) : Prop :=
  Int.fract (call.amount * 10 ^ 12) = 1 / 2 → ∀ balance ∈ db.balances, isRowOf call balance →
    (0 ≤ balance.amount + call.amount ↔ 0 ≤ call.amount)

/-- The condition on a state whose next statement is an update. -/
def TxState.RoundsAlike : TxState → Prop
  | .running _ db (.writeBalance (some _)) (call :: _) => Miningcore.RoundsAlike db call
  | _ => True

/-! ## The invariant -/

/-- The tables a transaction sees: keys are unique and amounts are those of the column. -/
structure ValidTables (db : Database) : Prop where
  unique : UniqueBalances db
  decimals : ∀ balance ∈ db.balances, HasDecimals 12 balance.amount

/-- What is recorded but not yet added to the balance of the current call. -/
def owed : Statement → List AddAmount → String → String → ℚ
  | .insertChange, _, _, _ => 0
  | _, [], _, _ => 0
  | _, call :: _, poolId, address =>
      if call.poolId = poolId ∧ call.address = address then columnValue call.amount else 0

structure RunningInv (db : Database) (statement : Statement) (calls : List AddAmount) : Prop where
  valid : ValidTables db
  sum : ∀ poolId address,
    getBalance db poolId address + owed statement calls poolId address =
      changeSum db poolId address
  found : ∀ balance call rest, statement = .writeBalance balance → calls = call :: rest →
    balance = db.balances.find? (isRowOf call)

def TxState.Inv : TxState → Prop
  | .idle db => ValidTables db ∧ Balanced db
  | .running before db statement calls =>
      (ValidTables before ∧ Balanced before) ∧ RunningInv db statement calls

theorem hasDecimals_columnValue (x : ℚ) : HasDecimals 12 (columnValue x) := by
  refine ⟨roundHalfAway (x * 10 ^ 12), ?_⟩
  rw [columnValue, div_mul_cancel₀ _ (by positivity)]

/-- Adding to a stored number and rounding is rounding and adding, exactly when both roundings go
the same way. -/
theorem columnValue_add_iff {balance : ℚ} (h : HasDecimals 12 balance) (amount : ℚ) :
    columnValue (balance + amount) = balance + columnValue amount ↔
      (Int.fract (amount * 10 ^ 12) = 1 / 2 → (0 ≤ balance + amount ↔ 0 ≤ amount)) := by
  obtain ⟨n, hn⟩ := h
  have hpow : (0 : ℚ) < 10 ^ 12 := by positivity
  have hsum : (balance + amount) * 10 ^ 12 = n + amount * 10 ^ 12 := by rw [add_mul, hn]
  have hbalance : balance = n / 10 ^ 12 := by rw [← hn, mul_div_cancel_right₀ _ hpow.ne']
  have hiff := roundHalfAway_intCast_add_iff n (amount * 10 ^ 12)
  rw [← hsum, mul_nonneg_iff_of_pos_right hpow, mul_nonneg_iff_of_pos_right hpow] at hiff
  rw [← hiff, columnValue, columnValue]
  constructor
  · intro heq
    have hscaled : ((roundHalfAway ((balance + amount) * 10 ^ 12) : ℤ) : ℚ) =
        ((n + roundHalfAway (amount * 10 ^ 12) : ℤ) : ℚ) := by
      rw [div_eq_iff hpow.ne'] at heq
      rw [heq, add_mul, div_mul_cancel₀ _ hpow.ne', hn]
      push_cast
      rfl
    exact Int.cast_inj.mp hscaled
  · intro heq
    rw [heq]
    push_cast
    rw [add_div, ← hbalance]

section Statements

variable {db db' : Database} {call : AddAmount} {next : Option Statement}

/-- Either write of a balance adds the stored amount to it. -/
theorem execute_writeBalance (hvalid : ValidTables db) (hrounds : RoundsAlike db call)
    {balance : Option Balance} (hfound : balance = db.balances.find? (isRowOf call))
    (h : execute db call (.writeBalance balance) = some (db', next)) :
    db' = { db with
        balances := upsertAmount db.balances call.poolId call.address
          (columnValue call.amount) } ∧
      next = none := by
  have hany : balance.isSome = db.balances.any fun balance =>
      balance.poolId = call.poolId ∧ balance.address = call.address := by
    rw [hfound, List.isSome_find?]
    rfl
  rw [upsertAmount, ← hany]
  cases balance with
  | none =>
      rw [execute] at h
      split at h
      · cases h
        exact ⟨rfl, rfl⟩
      · cases h
  | some balance =>
      rw [execute] at h
      split at h
      · cases h
        refine ⟨?_, rfl⟩
        congr 1
        apply List.map_congr_left
        intro row hrow
        rw [updatedRow, isRowOf]
        by_cases hkey : row.poolId = call.poolId ∧ row.address = call.address
        · have hadd := (columnValue_add_iff (hvalid.decimals row hrow) call.amount).mpr
            fun hhalf => hrounds hhalf row hrow (decide_eq_true hkey)
          simp [hkey, hadd]
        · simp [hkey]
      · cases h

theorem validTables_upsertAmount (hvalid : ValidTables db) (poolId address : String)
    {amount : ℚ} (hamount : HasDecimals 12 amount) :
    ValidTables { db with balances := upsertAmount db.balances poolId address amount } where
  unique := uniqueBalances_addAmount hvalid.unique poolId address amount .balanceReset
  decimals := by
    intro balance hmem
    rw [upsertAmount] at hmem
    split at hmem
    · obtain ⟨row, hrow, rfl⟩ := List.mem_map.mp hmem
      split
      · exact (hvalid.decimals row hrow).add hamount
      · exact hvalid.decimals row hrow
    · cases List.mem_append.mp hmem with
      | inl hmem => exact hvalid.decimals balance hmem
      | inr hmem =>
          rw [List.mem_singleton.mp hmem]
          exact hamount

theorem changeSum_append (poolId address : String) (change : BalanceChange) :
    changeSum { db with balanceChanges := db.balanceChanges ++ [change] } poolId address =
      changeSum db poolId address +
        if change.poolId = poolId ∧ change.address = address then change.amount else 0 := by
  rw [changeSum, List.filter_append, List.map_append, List.sum_append, changeSum]
  by_cases hkey : change.poolId = poolId ∧ change.address = address <;> simp [hkey]

/-- What a statement does to the tables of its transaction. -/
theorem runningInv_execute {statement : Statement} {calls : List AddAmount}
    (hinv : RunningInv db statement (call :: calls))
    (hrounds : ∀ balance, statement = .writeBalance (some balance) → RoundsAlike db call)
    (h : execute db call statement = some (db', next)) :
    match next with
    | some next => RunningInv db' next (call :: calls)
    | none => RunningInv db' .insertChange calls := by
  obtain ⟨hvalid, hsum, hfound⟩ := hinv
  cases statement with
  | insertChange =>
      rw [execute] at h
      split at h
      · cases h
        refine ⟨⟨hvalid.unique, hvalid.decimals⟩, fun poolId address => ?_,
          fun _ _ _ h => nomatch h⟩
        rw [changeSum_append, ← hsum poolId address]
        simp only [owed, add_zero]
        rfl
      · cases h
  | selectBalance =>
      cases h
      refine ⟨hvalid, hsum, fun balance call' rest hstatement hcalls => ?_⟩
      cases hstatement
      cases hcalls
      rfl
  | writeBalance balance =>
      have hrow := hfound balance call calls rfl rfl
      have hrounds : RoundsAlike db call := by
        cases hbalance : balance with
        | some row => exact hrounds row (by rw [hbalance])
        | none =>
            -- without a row there is nothing to be added to
            intro _ row hmem hkey
            rw [hbalance] at hrow
            exact absurd hkey (List.find?_eq_none.mp hrow.symm row hmem)
      obtain ⟨rfl, rfl⟩ := execute_writeBalance hvalid hrounds hrow h
      refine ⟨validTables_upsertAmount hvalid _ _ (hasDecimals_columnValue _),
        fun poolId address => ?_, fun _ _ _ h => nomatch h⟩
      have hwrite := find?_upsertAmount db.balances call.poolId call.address
        (columnValue call.amount) poolId address
      have hbefore := hsum poolId address
      simp only [owed, add_zero] at hbefore ⊢
      rw [getBalance, hwrite]
      exact hbefore

end Statements

/-- One step keeps the invariant. -/
theorem txStep_inv {s s' : TxState} (h : TxStep s s') (hrounds : s.RoundsAlike) (hinv : s.Inv) :
    s'.Inv := by
  cases h with
  | begin db calls =>
      obtain ⟨hvalid, hbalanced⟩ := hinv
      refine ⟨⟨hvalid, hbalanced⟩, hvalid, fun poolId address => ?_, fun _ _ _ h => nomatch h⟩
      rw [owed, add_zero]
      exact hbalanced poolId address
  | statement hexecute =>
      refine ⟨hinv.1, ?_⟩
      apply runningInv_execute hinv.2 _ hexecute
      rintro balance rfl
      exact hrounds
  | last hexecute =>
      refine ⟨hinv.1, ?_⟩
      apply runningInv_execute hinv.2 _ hexecute
      rintro balance rfl
      exact hrounds
  | commit before db =>
      refine ⟨hinv.2.valid, fun poolId address => ?_⟩
      have hsum := hinv.2.sum poolId address
      rwa [owed, add_zero] at hsum
  | rollback before db statement calls => exact hinv.1

theorem balanced_committed_of_inv {s : TxState} (h : s.Inv) : Balanced s.committed := by
  cases s with
  | idle db => exact h.2
  | running before db statement calls => exact h.1.2

/-! ## Whole calls -/

/-- The statements of a call in a row. -/
def addAmountAsync (db : Database) (call : AddAmount) : Option Database :=
  match execute db call .insertChange with
  | none => none
  | some (db, _) =>
      (execute db call (.writeBalance (db.balances.find? (isRowOf call)))).map Prod.fst

/-- A transaction that is committed. -/
def runTransaction : Database → List AddAmount → Option Database
  | db, [] => some db
  | db, call :: calls => (addAmountAsync db call).bind (runTransaction · calls)

theorem txStep_addAmountAsync {db db' : Database} {call : AddAmount}
    (h : addAmountAsync db call = some db') (before : Database) (calls : List AddAmount) :
    ReflTransGen TxStep (.running before db .insertChange (call :: calls))
      (.running before db' .insertChange calls) := by
  rw [addAmountAsync] at h
  split at h
  · cases h
  · rename_i db₁ next hinsert
    obtain ⟨⟨db₂, last⟩, hwrite, rfl⟩ := Option.map_eq_some_iff.mp h
    have hnext : next = some .selectBalance := by
      rw [execute] at hinsert
      split at hinsert
      · cases hinsert
        rfl
      · cases hinsert
    have hlast : last = none := by
      cases hfind : db₁.balances.find? (isRowOf call) with
      | none =>
          rw [hfind, execute] at hwrite
          split at hwrite <;> cases hwrite
          rfl
      | some row =>
          rw [hfind, execute] at hwrite
          split at hwrite <;> cases hwrite
          rfl
    subst hnext
    subst hlast
    exact .tail (.tail (.tail .refl (.statement hinsert)) (.statement rfl)) (.last hwrite)

theorem run_of_runTransaction (db db' : Database) (calls : List AddAmount)
    (h : runTransaction db calls = some db') : ReflTransGen TxStep (.idle db) (.idle db') := by
  have hcalls : ∀ (calls : List AddAmount) (db₁ : Database), runTransaction db₁ calls = some db' →
      ReflTransGen TxStep (.running db db₁ .insertChange calls)
        (.running db db' .insertChange []) := by
    intro calls
    induction calls with
    | nil =>
        intro db₁ h
        cases h
        exact .refl
    | cons call calls ih =>
        intro db₁ h
        obtain ⟨db₂, hcall, hrest⟩ := Option.bind_eq_some_iff.mp h
        exact (txStep_addAmountAsync hcall db calls).trans (ih db₂ hrest)
  exact (ReflTransGen.head (.begin db calls) (hcalls calls db h)).tail (.commit db db')

theorem columnValue_of_hasDecimals {x : ℚ} (h : HasDecimals 12 x) : columnValue x = x := by
  obtain ⟨n, hn⟩ := h
  rw [columnValue, hn, roundHalfAway_intCast, ← hn, mul_div_cancel_right₀ _ (by positivity)]

/-- The amounts that a call writes fit. -/
def fits (db : Database) (call : AddAmount) : Bool :=
  fitsColumn call.amount && (db.balances.filter (isRowOf call)).all
    fun balance => fitsColumn (balance.amount + call.amount)

/-- What the payouts take a call to do. -/
def applied (db : Database) (call : AddAmount) : Database :=
  addAmount db call.poolId call.address call.amount call.usage

/-- The amounts that the calls of a transaction write fit. -/
def allFit : Database → List AddAmount → Bool
  | _, [] => true
  | db, call :: calls => fits db call && allFit (applied db call) calls

/-- A write fails just where a sum does not fit. -/
theorem isSome_execute_writeBalance {db : Database} {call : AddAmount}
    (hamount : fitsColumn call.amount = true) :
    (execute db call (.writeBalance (db.balances.find? (isRowOf call)))).isSome =
      fits db call := by
  rw [fits, hamount, Bool.true_and]
  cases hfind : db.balances.find? (isRowOf call) with
  | none =>
      have hnone : db.balances.filter (isRowOf call) = [] := by
        rw [List.filter_eq_nil_iff]
        exact List.find?_eq_none.mp hfind
      rw [execute, if_pos hamount, hnone]
      rfl
  | some row =>
      rw [execute]
      split
      · rename_i hall
        rw [hall]
        rfl
      · rename_i hall
        rw [Bool.not_eq_true] at hall
        rw [hall]
        rfl

/-- A call with an amount of the column does what the payouts take it to do, unless something does
not fit. -/
theorem addAmountAsync_eq {db : Database} (hvalid : ValidTables db) {call : AddAmount}
    (hdecimals : HasDecimals 12 call.amount) :
    addAmountAsync db call = if fits db call then some (applied db call) else none := by
  have hrounds : RoundsAlike db call := by
    intro hhalf
    obtain ⟨n, hn⟩ := hdecimals
    rw [hn, Int.fract_intCast] at hhalf
    norm_num at hhalf
  by_cases hamount : fitsColumn call.amount = true
  · have hinsert : execute db call .insertChange = some ({ db with
        balanceChanges := db.balanceChanges ++
          [⟨call.poolId, call.address, call.amount, call.usage⟩] }, some .selectBalance) := by
      rw [execute, if_pos hamount, columnValue_of_hasDecimals hdecimals]
    rw [addAmountAsync, hinsert]
    simp only
    generalize hdb₁ : ({ db with balanceChanges := db.balanceChanges ++
      [⟨call.poolId, call.address, call.amount, call.usage⟩] } : Database) = db₁
    have hbalances : db₁.balances = db.balances := by rw [← hdb₁]
    have hvalid₁ : ValidTables db₁ := by
      rw [← hdb₁]
      exact ⟨hvalid.unique, hvalid.decimals⟩
    have hrounds₁ : RoundsAlike db₁ call := by
      rw [RoundsAlike, hbalances]
      exact hrounds
    have hsome : (execute db₁ call (.writeBalance (db₁.balances.find? (isRowOf call)))).isSome =
        fits db₁ call := isSome_execute_writeBalance hamount
    rw [fits, hbalances, ← fits] at hsome
    rw [← hsome, ← hbalances]
    cases hwrite : execute db₁ call (.writeBalance (db₁.balances.find? (isRowOf call))) with
    | none => rfl
    | some result =>
        obtain ⟨db₂, next⟩ := result
        obtain ⟨rfl, _⟩ := execute_writeBalance hvalid₁ hrounds₁ rfl hwrite
        rw [Option.isSome_some, if_pos rfl, Option.map_some, columnValue_of_hasDecimals hdecimals,
          ← hdb₁]
        rfl
  · rw [addAmountAsync, execute, if_neg hamount, fits, if_neg (by simp [hamount])]

theorem validTables_applied {db : Database} (hvalid : ValidTables db) {call : AddAmount}
    (hdecimals : HasDecimals 12 call.amount) : ValidTables (applied db call) :=
  have h := validTables_upsertAmount hvalid call.poolId call.address hdecimals
  ⟨h.unique, h.decimals⟩

/-- A transaction whose amounts are those of the column commits what the payouts take its calls to
do, unless something does not fit. -/
theorem runTransaction_eq_foldl_applied {db : Database} (hvalid : ValidTables db) {calls : List AddAmount}
    (hdecimals : ∀ call ∈ calls, HasDecimals 12 call.amount) :
    runTransaction db calls =
      if allFit db calls then some (calls.foldl applied db) else none := by
  induction calls generalizing db with
  | nil => rfl
  | cons call calls ih =>
      obtain ⟨hfirst, hrest⟩ := List.forall_mem_cons.mp hdecimals
      rw [runTransaction, addAmountAsync_eq hvalid hfirst, allFit, List.foldl_cons]
      by_cases hfits : fits db call = true
      · rw [if_pos hfits, hfits, Bool.true_and, Option.bind_some,
          ih (validTables_applied hvalid hfirst) hrest]
      · rw [if_neg hfits, if_neg (by simp [hfits]), Option.bind_none]

/-- In every run that starts with a balanced ledger and whose updates round alike, the committed
ledger is balanced. -/
theorem balanced_of_roundsAlike {db : Database} (hvalid : ValidTables db) (hbalanced : Balanced db)
    {s : TxState} (hrun : ReflTransGen (fun s s' => s.RoundsAlike ∧ TxStep s s') (.idle db) s) :
    Balanced s.committed := by
  apply balanced_committed_of_inv
  induction hrun with
  | refl => exact ⟨hvalid, hbalanced⟩
  | tail _ hstep ih => exact txStep_inv hstep.2 hstep.1 ih

namespace NegativeBalance

def credit : AddAmount := ⟨"pool", "a", 1.23456, .rewardForBlock 1⟩

/-- A payment of the balance, rounded up to four places. -/
def payment : AddAmount := ⟨"pool", "a", -1.2346, .balanceReset⟩

/-- A credit of half of the last place of the column. -/
def halfCredit : AddAmount := ⟨"pool", "a", 0.0000000000005, .rewardForBlock 2⟩

def dbAfter (calls : List AddAmount) : Database :=
  calls.foldl (fun db call => (runTransaction db [call]).getD db) {}

/-- A transaction of both is what the payouts take it to be. -/
theorem runTransaction_credit_payment : runTransaction {} [credit, payment] =
    some ([credit, payment].foldl applied {}) := by
  have hdecimals : ∀ call ∈ [credit, payment], HasDecimals 12 call.amount := by
    rintro call hcall
    simp only [List.mem_cons, List.not_mem_nil, or_false] at hcall
    obtain rfl | rfl := hcall
    · exact ⟨1234560000000, by norm_num [credit]⟩
    · exact ⟨-1234600000000, by norm_num [payment]⟩
  rw [runTransaction_eq_foldl_applied ⟨by decide, List.forall_mem_nil _⟩ hdecimals,
    if_pos (by decide +kernel)]

/-- The change of the last credit is rounded up, the sum it makes is rounded down. -/
theorem not_balanced :
    ¬∀ s, ReflTransGen TxStep (.idle {}) s → Balanced s.committed := by
  intro h
  have hcredit := run_of_runTransaction {} (dbAfter [credit]) [credit] (by decide +kernel)
  have hpayment := run_of_runTransaction (dbAfter [credit]) (dbAfter [credit, payment]) [payment]
    (by decide +kernel)
  have hhalf := run_of_runTransaction (dbAfter [credit, payment])
    (dbAfter [credit, payment, halfCredit]) [halfCredit] (by decide +kernel)
  have hsum := h _ ((hcredit.trans hpayment).trans hhalf) "pool" "a"
  exact absurd hsum (by decide +kernel)

def changed : Database := { balanceChanges := [⟨"pool", "a", 1.23456, .rewardForBlock 1⟩] }

def credited : Database := { changed with balances := [⟨"pool", "a", 1.23456⟩] }

/-- The ledger is balanced after the first credit. -/
theorem balanced_credited : Balanced credited := by
  have hinsert : execute {} credit .insertChange = some (changed, some .selectBalance) := by
    decide +kernel
  have hselect : execute changed credit .selectBalance =
      some (changed, some (.writeBalance none)) := by
    decide +kernel
  have hwrite : execute changed credit (.writeBalance none) = some (credited, none) := by
    decide +kernel
  have hrun : ReflTransGen (fun s s' => s.RoundsAlike ∧ TxStep s s') (.idle {})
      (.idle credited) :=
    .tail (.tail (.tail (.tail (.tail .refl ⟨trivial, .begin {} [credit]⟩)
      ⟨trivial, .statement hinsert⟩) ⟨trivial, .statement hselect⟩) ⟨trivial, .last hwrite⟩)
      ⟨trivial, .commit {} credited⟩
  exact balanced_of_roundsAlike ⟨by decide, List.forall_mem_nil _⟩ (fun _ _ => rfl) hrun

end NegativeBalance

end Miningcore
