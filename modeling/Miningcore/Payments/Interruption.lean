import Miningcore.Payments.PayoutManager

/-!
# Cancellation of a settlement

The transaction of a block either throws at a call that takes the token, and is
rolled back, or it commits. A token that is first seen by the test of the page
loop makes it commit a calculation over part of the pages.
-/

namespace Miningcore

open Foundation PageLoop WindowCalculation PayoutHandlerBase

namespace PPLNSPaymentScheme

variable {handler : PayoutHandler} {pool : PoolConfig} {ct : CancellationToken} {now : Nat}
  {block : Block} {blockReward : ℚ} {db : Database}

/-- The token is first seen by a test of the page loop behind which shares are owed a reward. -/
def SilentExit (handler : PayoutHandler) (pool : PoolConfig) (ct : CancellationToken) (now : Nat)
    (block : Block) (blockReward : ℚ) (shares : List Share) : Prop :=
  ∃ k < (blockPages shares pool.id block pageSize).length,
    SeenAtTest ct pageSize now k ∧
      Truncates handler (windowFactor pool) blockReward
        ((blockPages shares pool.id block pageSize).take k).flatten
        ((blockPages shares pool.id block pageSize).drop k).flatten

/-- A calculation that ends has walked down all pages, or down the pages before a test. -/
theorem calculateRewards_ok {st : RewardState} {n : Nat}
    (h : calculateRewards pageSize handler pool ct now (windowFactor pool) block blockReward
      db.shares = .ok (st, n)) :
    (thrown handler (windowFactor pool) blockReward 0
          (blockPages db.shares pool.id block pageSize).flatten = none ∧
        fill handler (windowFactor pool) blockReward (start blockReward)
          (blockPages db.shares pool.id block pageSize).flatten = st) ∨
      ∃ k < (blockPages db.shares pool.id block pageSize).length,
        SeenAtTest ct pageSize now k ∧
        thrown handler (windowFactor pool) blockReward 0
          ((blockPages db.shares pool.id block pageSize).take k).flatten = none ∧
        (windowScan handler (windowFactor pool)).stops 0
          ((blockPages db.shares pool.id block pageSize).take k).flatten = false ∧
        fill handler (windowFactor pool) blockReward (start blockReward)
          ((blockPages db.shares pool.id block pageSize).take k).flatten = st := by
  rcases readPages_ok (by decide) h with hall | ⟨k, hk, hseen, hproc, hdone⟩
  · rw [foldPages_processPage] at hall
    exact Or.inl ((processPage_eq_ok_iff (running_start _ _)).mp hall)
  · rw [foldPages_processPage] at hproc
    obtain ⟨hnone, rfl⟩ := (processPage_eq_ok_iff (running_start _ _)).mp hproc
    exact Or.inr ⟨k, hk, hseen, hnone, hdone, rfl⟩

theorem calculateRewards_of_seenAtTest {k : Nat}
    (hk : k < (blockPages db.shares pool.id block pageSize).length)
    (hseen : SeenAtTest ct pageSize now k)
    (hnone : thrown handler (windowFactor pool) blockReward 0
      ((blockPages db.shares pool.id block pageSize).take k).flatten = none)
    (hstops : (windowScan handler (windowFactor pool)).stops 0
      ((blockPages db.shares pool.id block pageSize).take k).flatten = false) :
    calculateRewards pageSize handler pool ct now (windowFactor pool) block blockReward db.shares =
      .ok (fill handler (windowFactor pool) blockReward (start blockReward)
        ((blockPages db.shares pool.id block pageSize).take k).flatten,
        testTick pageSize now k) := by
  refine readPages_of_interrupted (by decide) ⟨hk, hseen, ?_, hstops⟩
  rw [foldPages_processPage]
  exact (processPage_eq_ok_iff (running_start _ _)).mpr ⟨hnone, rfl⟩

/-- Without a silent exit, an update that ends writes what it writes without a cancellation. -/
theorem credits_of_not_silentExit (h : ¬SilentExit handler pool ct now block blockReward db.shares)
    {result : Database × Nat}
    (hok : updateBalances handler pool ct now block blockReward db = .ok result) :
    ∃ result₀, updateBalances handler pool .none now block blockReward db = .ok result₀ ∧
      result.1.credits = result₀.1.credits := by
  obtain ⟨st, n, hcalc, hsettled⟩ := updateBalances_ok hok
  have hfull : thrown handler (windowFactor pool) blockReward 0
        (blockPages db.shares pool.id block pageSize).flatten = none ∧
      (fill handler (windowFactor pool) blockReward (start blockReward)
        (blockPages db.shares pool.id block pageSize).flatten).rewards = st.rewards := by
    rcases calculateRewards_ok hcalc with ⟨hnone, rfl⟩ | ⟨k, hk, hseen, hnone, hstops, rfl⟩
    · exact ⟨hnone, rfl⟩
    · have hrest := rewards_fill_of_not_truncates (start blockReward) rfl hnone hstops
        fun htrunc => h ⟨k, hk, hseen, htrunc⟩
      rwa [flatten_take_append_drop] at hrest
  obtain ⟨result₀, hok₀⟩ := exists_updateBalances_none now hfull.1
  refine ⟨result₀, hok₀, ?_⟩
  rw [hsettled.credits, (settled_updateBalances_none hok₀).2.credits, RewardState.calculation,
    RewardState.calculation, hfull.2]

/-- After a silent exit the update ends, and has not written what it writes without a
cancellation. -/
theorem credits_of_silentExit (h : SilentExit handler pool ct now block blockReward db.shares) :
    ∃ result, updateBalances handler pool ct now block blockReward db = .ok result ∧
      ∀ now₀ result₀, updateBalances handler pool .none now₀ block blockReward db = .ok result₀ →
        result.1.credits ≠ result₀.1.credits := by
  obtain ⟨k, hk, hseen, htrunc⟩ := h
  obtain ⟨hnone, hstops, _⟩ := (truncates_iff _ _).mp htrunc
  have hcalc := calculateRewards_of_seenAtTest hk hseen hnone hstops
  obtain ⟨result, hok⟩ := exists_updateBalances hcalc (Or.inr (by simp [fill, hstops, start]))
  refine ⟨result, hok, fun now₀ result₀ hok₀ heq => ?_⟩
  obtain ⟨hnone₀, hsettled₀⟩ := settled_updateBalances_none hok₀
  obtain ⟨st, n, hcalc', hsettled⟩ := updateBalances_ok hok
  obtain ⟨rfl, _⟩ : _ = st ∧ _ = n := by
    simpa using hcalc.symm.trans hcalc'
  rw [hsettled.credits, hsettled₀.credits, List.append_cancel_left_eq] at heq
  have hlt := total_lt_of_truncates (start blockReward) rfl htrunc
    (by rwa [flatten_take_append_drop])
  have htotal := congrArg creditTotal heq
  have hempty : ∀ e ∈ (start blockReward).rewards.entries, (0 : ℚ) ≤ e.2 := by
    intro e he
    cases he
  rw [flatten_take_append_drop] at hlt
  rw [RewardState.calculation, RewardState.calculation,
    creditTotal_filter (values_fill hempty _), creditTotal_filter (values_fill hempty _)] at htotal
  exact hlt.ne htotal

end PPLNSPaymentScheme

namespace PayoutManager

variable {handler : PayoutHandler} {pool : PoolConfig} {ct : CancellationToken} {now : Nat}
  {block : Block} {db : Database}

/-- The transaction of a block commits the credits an uncancelled PPLNS settlement writes, or it
commits nothing. -/
def SettlesAllOrNothing (handler : PayoutHandler) (pool : PoolConfig) (ct : CancellationToken)
    (now : Nat) (block : Block) (db : Database) : Prop :=
  match runTx db (processBlock handler PPLNSPaymentScheme.updateBalances pool ct now block) with
  | (db', .ok _) =>
      ∃ result₀, processBlock handler PPLNSPaymentScheme.updateBalances pool .none now block db =
          .ok result₀ ∧ db'.credits = result₀.1.credits
  | (db', .error _) => db' = db

/-- The effort calls miss the token, and the page loop of the calculation leaves silently. -/
def InterruptedSilently (handler : PayoutHandler) (pool : PoolConfig) (ct : CancellationToken)
    (now : Nat) (block : Block) (shares : List Share) : Prop :=
  EffortsUnseen ct now block ∧
    PPLNSPaymentScheme.SilentExit handler pool ct (now + 2) block
      (blockRewardRemaining handler pool block) shares

theorem not_settlesAllOrNothing (hstatus : block.status = .confirmed)
    (h : InterruptedSilently handler pool ct now block db.shares) :
    ¬SettlesAllOrNothing handler pool ct now block db := by
  obtain ⟨hunseen, hexit⟩ := h
  have hshares := (onlyCredits_updateBlockRewardBalances handler pool db
    (withEfforts handler pool block db)).shares
  have hexit' : PPLNSPaymentScheme.SilentExit handler pool ct (now + 2)
      (withEfforts handler pool block db) (blockRewardRemaining handler pool block)
      (updateBlockRewardBalances handler pool db (withEfforts handler pool block db)).1.shares := by
    rw [hshares]
    exact hexit
  obtain ⟨⟨db₁, n⟩, hok, hne⟩ := PPLNSPaymentScheme.credits_of_silentExit hexit'
  have hblock : processBlock handler PPLNSPaymentScheme.updateBalances pool ct now block db =
      .ok (_, n) := (processBlock_confirmed_eq_ok_iff hstatus).mpr ⟨hunseen, db₁, hok, rfl⟩
  rw [SettlesAllOrNothing, runTx, hblock]
  rintro ⟨⟨db', n'⟩, hblock₀, heq⟩
  obtain ⟨_, db₀, hok₀, rfl⟩ := (processBlock_confirmed_eq_ok_iff hstatus).mp hblock₀
  exact hne _ _ hok₀ heq

theorem settlesAllOrNothing (hstatus : block.status = .confirmed)
    (h : ¬InterruptedSilently handler pool ct now block db.shares) :
    SettlesAllOrNothing handler pool ct now block db := by
  have hshares := (onlyCredits_updateBlockRewardBalances handler pool db
    (withEfforts handler pool block db)).shares
  rw [SettlesAllOrNothing, runTx]
  cases hblock : processBlock handler PPLNSPaymentScheme.updateBalances pool ct now block db with
  | error e => rfl
  | ok result =>
      obtain ⟨hunseen, db₁, hok, hresult⟩ := (processBlock_confirmed_eq_ok_iff hstatus).mp hblock
      obtain ⟨⟨db₀, n₀⟩, hok₀, heq⟩ := PPLNSPaymentScheme.credits_of_not_silentExit
        (fun hexit => h ⟨hunseen, by rw [hshares] at hexit; exact hexit⟩) hok
      have hblock₀ : processBlock handler PPLNSPaymentScheme.updateBalances pool .none now block
          db = .ok (_, n₀) := (processBlock_confirmed_eq_ok_iff hstatus).mpr
        ⟨effortsUnseen_none now block, db₀, hok₀, rfl⟩
      refine ⟨_, hblock₀, ?_⟩
      rw [← hresult]
      exact heq

end PayoutManager

end Miningcore
