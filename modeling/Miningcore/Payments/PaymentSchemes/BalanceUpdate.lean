import Miningcore.Payments.PaymentSchemes.ShareReading

/-!
# Updating balances from calculated rewards

What follows the calculation in `UpdateBalancesAsync` of every scheme: the
credit loop, and the deletion of the shares before the cutoff.
-/

namespace Miningcore

open Foundation ShareRepository

/-- What a reward calculation leaves to its caller. -/
structure Calculation where
  shares : Dictionary String ℚ
  rewards : Dictionary String ℚ
  shareCutOffDate : Option DateTime
deriving DecidableEq

/-- The addresses and amounts of all balance changes. -/
def Database.credits (db : Database) : List (String × ℚ) :=
  db.balanceChanges.map fun change => (change.address, change.amount)

/-- The credit loop. The text of a credit quotes the difficulty recorded for its address. -/
def creditRewards (poolId : String) (blockHeight : Nat) (shares : Dictionary String ℚ) :
    Database → List (String × ℚ) → Except Exception Database
  | db, [] => .ok db
  | db, (address, amount) :: rest =>
      if 0 < amount then
        match shares.find? address with
        | none => .error (.keyNotFound address)
        | some quantity =>
            creditRewards poolId blockHeight shares
              (BalanceRepository.addAmount db poolId address amount
                (.rewardForShares quantity blockHeight)) rest
      else creditRewards poolId blockHeight shares db rest

/-- The deletion of the shares that later blocks are not expected to need. -/
def discardShares (pageSize : Nat) (ct : CancellationToken) (poolId : String) (now : Nat)
    (db : Database) : Option DateTime → Except Exception (Database × Nat)
  | none => .ok (db, now)
  | some cutoff =>
      match ct.throwIfCancellationRequested now with
      | .error e => .error e
      | .ok () =>
          if 0 < countSharesBefore db.shares poolId cutoff then
            match logDiscardedShares ct db.shares poolId pageSize (now + 1) cutoff with
            | .error e => .error e
            | .ok now' =>
                match ct.throwIfCancellationRequested now' with
                | .error e => .error e
                | .ok () =>
                    .ok ({ db with shares := deleteSharesBefore db.shares poolId cutoff }, now' + 1)
          else .ok (db, now + 1)

/-- `UpdateBalancesAsync` after its calculation. -/
def updateBalancesFrom (pageSize : Nat) (ct : CancellationToken) (pool : PoolConfig)
    (block : Block) (now : Nat) (db : Database) (calculation : Calculation) :
    Except Exception (Database × Nat) :=
  match creditRewards pool.id block.blockHeight calculation.shares db
      calculation.rewards.entries with
  | .error e => .error e
  | .ok db' => discardShares pageSize ct pool.id now db' calculation.shareCutOffDate

/-! ## What an update writes -/

/-- The parts of the database a credit leaves alone. -/
structure OnlyCredits (db db' : Database) : Prop where
  shares : db'.shares = db.shares
  blocks : db'.blocks = db.blocks
  payments : db'.payments = db.payments
  minerSettings : db'.minerSettings = db.minerSettings

theorem OnlyCredits.refl (db : Database) : OnlyCredits db db := ⟨rfl, rfl, rfl, rfl⟩

theorem OnlyCredits.trans {db₁ db₂ db₃ : Database} (h₁ : OnlyCredits db₁ db₂)
    (h₂ : OnlyCredits db₂ db₃) : OnlyCredits db₁ db₃ :=
  ⟨h₂.shares.trans h₁.shares, h₂.blocks.trans h₁.blocks, h₂.payments.trans h₁.payments,
    h₂.minerSettings.trans h₁.minerSettings⟩

theorem onlyCredits_addAmount (db : Database) (poolId address : String) (amount : ℚ)
    (usage : Usage) :
    OnlyCredits db (BalanceRepository.addAmount db poolId address amount usage) :=
  ⟨rfl, rfl, rfl, rfl⟩

@[simp] theorem credits_addAmount (db : Database) (poolId address : String) (amount : ℚ)
    (usage : Usage) :
    (BalanceRepository.addAmount db poolId address amount usage).credits =
      db.credits ++ [(address, amount)] := by
  simp [Database.credits, BalanceRepository.addAmount]

variable {poolId : String} {blockHeight : Nat} {shares : Dictionary String ℚ}

theorem onlyCredits_creditRewards {entries : List (String × ℚ)} {db db' : Database}
    (h : creditRewards poolId blockHeight shares db entries = .ok db') : OnlyCredits db db' := by
  induction entries generalizing db with
  | nil =>
      cases h
      exact .refl _
  | cons entry entries ih =>
      obtain ⟨address, amount⟩ := entry
      rw [creditRewards] at h
      split at h
      · cases hf : shares.find? address with
        | none => simp [hf] at h
        | some quantity =>
            simp only [hf] at h
            exact (onlyCredits_addAmount db poolId address amount _).trans (ih h)
      · exact ih h

/-- The credits written are the positive rewards, in the order of the dictionary. -/
theorem credits_creditRewards {entries : List (String × ℚ)} {db db' : Database}
    (h : creditRewards poolId blockHeight shares db entries = .ok db') :
    db'.credits = db.credits ++ entries.filter fun entry => 0 < entry.2 := by
  induction entries generalizing db with
  | nil =>
      cases h
      simp
  | cons entry entries ih =>
      obtain ⟨address, amount⟩ := entry
      rw [creditRewards] at h
      split at h
      · rename_i hpos
        cases hf : shares.find? address with
        | none => simp [hf] at h
        | some quantity =>
            simp only [hf] at h
            simp [ih h, hpos]
      · rename_i hpos
        simp [ih h, hpos]

/-- The credit loop ends when every address to be credited has a recorded difficulty. -/
theorem exists_creditRewards (poolId : String) (blockHeight : Nat)
    {entries : List (String × ℚ)} (db : Database)
    (hkeys : ∀ entry ∈ entries, 0 < entry.2 → entry.1 ∈ shares.keys) :
    ∃ db', creditRewards poolId blockHeight shares db entries = .ok db' := by
  induction entries generalizing db with
  | nil => exact ⟨db, rfl⟩
  | cons entry entries ih =>
      obtain ⟨address, amount⟩ := entry
      have hrest : ∀ entry ∈ entries, 0 < entry.2 → entry.1 ∈ shares.keys :=
        fun e he => hkeys e (List.mem_cons_of_mem _ he)
      rw [creditRewards]
      split
      · rename_i hpos
        obtain ⟨quantity, hq⟩ := Dictionary.exists_find? (hkeys _ List.mem_cons_self hpos)
        rw [hq]
        exact ih _ hrest
      · exact ih db hrest

/-! ## What the deletion does -/

theorem logDiscardedShares_none (shares : List Share) (poolId : String) {pageSize : Nat}
    (hs : 0 < pageSize) (now : Nat) (before : DateTime) :
    ∃ now', logDiscardedShares .none shares poolId pageSize now before = .ok now' := by
  fun_induction logDiscardedShares .none shares poolId pageSize now before with
  | case1 now before e hcancel => cases hcancel
  | case2 now before hcancel page hshort => exact ⟨now + 1, rfl⟩
  | case3 now before hcancel page hfull hnone =>
      obtain ⟨last, hl⟩ := getLast?_of_not_lt hs hfull
      rw [hl] at hnone
      cases hnone
  | case4 now before hcancel page hfull last hl ih => exact ih

/-- Counting first changes nothing: without shares before the cutoff there is nothing to delete. -/
theorem deleteSharesBefore_of_count (shares : List Share) (poolId : String) (cutoff : DateTime)
    (h : ¬0 < countSharesBefore shares poolId cutoff) :
    deleteSharesBefore shares poolId cutoff = shares := by
  have hnil : shares.filter (isBefore poolId cutoff false) = [] :=
    List.eq_nil_of_length_eq_zero (by simpa [countSharesBefore] using h)
  rw [List.filter_eq_nil_iff] at hnil
  exact List.filter_eq_self.mpr fun share hshare => by simpa using hnil share hshare

/-- The shares a settlement with the given cutoff leaves. -/
def sharesAfter (shares : List Share) (poolId : String) : Option DateTime → List Share
  | none => shares
  | some cutoff => deleteSharesBefore shares poolId cutoff

theorem discardShares_none {pageSize : Nat} (hs : 0 < pageSize) (poolId : String) (now : Nat)
    (db : Database) (cutoff : Option DateTime) :
    ∃ now', discardShares pageSize .none poolId now db cutoff =
      .ok ({ db with shares := sharesAfter db.shares poolId cutoff }, now') := by
  cases cutoff with
  | none => exact ⟨now, rfl⟩
  | some cutoff =>
      rw [discardShares, CancellationToken.throwIfCancellationRequested_none]
      by_cases hc : 0 < countSharesBefore db.shares poolId cutoff
      · obtain ⟨now', hlog⟩ := logDiscardedShares_none db.shares poolId hs (now + 1) cutoff
        exact ⟨now' + 1, by simp [hc, hlog, sharesAfter]⟩
      · exact ⟨now + 1, by simp [hc, sharesAfter, deleteSharesBefore_of_count _ _ _ hc]⟩

/-- Whatever the token does, the deletion completes as if it were never cancelled or throws. -/
theorem discardShares_ok {pageSize : Nat} {ct : CancellationToken} {poolId : String} {now : Nat}
    {db : Database} {cutoff : Option DateTime} {result : Database × Nat}
    (h : discardShares pageSize ct poolId now db cutoff = .ok result) :
    result.1 = { db with shares := sharesAfter db.shares poolId cutoff } := by
  cases cutoff with
  | none =>
      cases h
      rfl
  | some cutoff =>
      rw [discardShares] at h
      split at h
      · cases h
      · split at h
        · split at h
          · cases h
          · split at h
            · cases h
            · cases h
              rfl
        · rename_i hc
          cases h
          simp [sharesAfter, deleteSharesBefore_of_count _ _ _ hc]

/-! ## The update as a whole -/

/-- What an update that ends without an exception has written. -/
structure Settled (poolId : String) (db db' : Database) (calculation : Calculation) : Prop where
  credits : db'.credits =
    db.credits ++ calculation.rewards.entries.filter fun entry => 0 < entry.2
  shares : db'.shares = sharesAfter db.shares poolId calculation.shareCutOffDate
  blocks : db'.blocks = db.blocks
  payments : db'.payments = db.payments
  minerSettings : db'.minerSettings = db.minerSettings

theorem updateBalancesFrom_ok {pageSize : Nat} {ct : CancellationToken} {pool : PoolConfig}
    {block : Block} {now : Nat} {db : Database} {calculation : Calculation}
    {result : Database × Nat}
    (h : updateBalancesFrom pageSize ct pool block now db calculation = .ok result) :
    Settled pool.id db result.1 calculation := by
  rw [updateBalancesFrom] at h
  split at h
  · cases h
  · rename_i db₁ hloop
    have honly := onlyCredits_creditRewards hloop
    have hcredits := credits_creditRewards hloop
    rw [discardShares_ok h]
    exact ⟨hcredits, congrArg (sharesAfter · pool.id _) honly.shares,
      honly.blocks, honly.payments, honly.minerSettings⟩

/-- An update ends when every rewarded address has a recorded difficulty and the token cannot stop
the deletion. -/
theorem exists_updateBalancesFrom {pageSize : Nat} (hs : 0 < pageSize) {ct : CancellationToken}
    (pool : PoolConfig) (block : Block) (now : Nat) (db : Database) {calculation : Calculation}
    (hkeys : ∀ address ∈ calculation.rewards.keys, address ∈ calculation.shares.keys)
    (hct : ct = .none ∨ calculation.shareCutOffDate = none) :
    ∃ result, updateBalancesFrom pageSize ct pool block now db calculation = .ok result := by
  obtain ⟨db₁, hloop⟩ := exists_creditRewards pool.id block.blockHeight db
    fun entry hentry _ => hkeys entry.1 (List.mem_map_of_mem hentry)
  rw [updateBalancesFrom, hloop]
  rcases hct with rfl | hnone
  · obtain ⟨now', hdiscard⟩ := discardShares_none hs pool.id now db₁ calculation.shareCutOffDate
    exact ⟨_, hdiscard⟩
  · rw [hnone]
    exact ⟨_, rfl⟩

end Miningcore
