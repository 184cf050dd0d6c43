import Miningcore.Foundation.FaultPolicies
import Miningcore.Payments.RowUpdates

/-!
# Classifications that ask a node

A handler asks its node about each pending row. Whether a row for which a call
failed may be orphaned by the cycle is decided by what the handler returns for it.
-/

namespace Miningcore

open Foundation BlockRepository PayoutManager WindowCalculation PayoutHandlerBase

/-- The results of a handler that classifies each row on its own; `none` is a row that is not
returned, and an exception ends the classification. -/
def classifyEach (classify : Block → Guarded Exception (Option Block)) :
    List Block → Except Exception (List Block)
  | [] => .ok []
  | row :: rest =>
      match (classify row).outcome with
      | .error e => .error e
      | .ok result =>
          match classifyEach classify rest with
          | .error e => .error e
          | .ok results => .ok (result.toList ++ results)

/-- However its transactions go, a cycle leaves a pending row for which a call failed pending, so
that the next cycle looks at it again, unless other answers confirm it. -/
def KeepsUnanswered (pool : PoolConfig) (classify : List Block → Except Exception (List Block))
    (unanswered : Block → Prop) (rows : List Block) : Prop :=
  ∀ (handler : PayoutHandler) (scheme : PayoutScheme) (ct : CancellationToken) (now : ℕ)
    (db : Database), SettlesOnly scheme → db.blocks = rows →
    ∀ row ∈ getPendingBlocksForPool rows pool.id, unanswered row →
      ∀ row' ∈ (updatePoolBalances handler scheme pool ct now classify db).1.blocks,
        row'.id = row.id → row'.status = .confirmed ∨
          row' ∈ getPendingBlocksForPool
            (updatePoolBalances handler scheme pool ct now classify db).1.blocks pool.id

/-- A classification of a row only sets columns that a cycle writes. -/
def KeepsKey (classify : Block → Guarded Exception (Option Block)) : Prop :=
  ∀ row result, (classify row).outcome = .ok (some result) → result.id = row.id

section classifications

variable {classify : Block → Guarded Exception (Option Block)} {rows results : List Block}

theorem classifyEach_cons_eq_ok_iff {row : Block} :
    classifyEach classify (row :: rows) = .ok results ↔
      ∃ result others, (classify row).outcome = .ok result ∧
        classifyEach classify rows = .ok others ∧ result.toList ++ others = results := by
  rw [classifyEach]
  rcases (classify row).outcome with e | result
  · simp
  · rcases classifyEach classify rows with e | others
    · simp
    · simp

theorem mem_classifyEach (h : classifyEach classify rows = .ok results) {block : Block} :
    block ∈ results ↔ ∃ row ∈ rows, (classify row).outcome = .ok (some block) := by
  induction rows generalizing results with
  | nil =>
      obtain rfl := Except.ok.inj h
      simp
  | cons row rows ih =>
      obtain ⟨result, others, hrow, hothers, rfl⟩ := classifyEach_cons_eq_ok_iff.mp h
      simp [ih hothers, hrow]

theorem exists_classifyEach_iff : (∃ results, classifyEach classify rows = .ok results) ↔
    ∀ row ∈ rows, ∃ result, (classify row).outcome = .ok result := by
  induction rows with
  | nil => simp [classifyEach]
  | cons row rows ih =>
      rw [List.forall_mem_cons, ← ih]
      simp only [classifyEach_cons_eq_ok_iff]
      constructor
      · rintro ⟨_, result, others, hrow, hothers, -⟩
        exact ⟨⟨result, hrow⟩, others, hothers⟩
      · rintro ⟨⟨result, hrow⟩, others, hothers⟩
        exact ⟨_, result, others, hrow, hothers, rfl⟩

theorem map_id_classifyEach (hkey : KeepsKey classify)
    (h : classifyEach classify rows = .ok results) :
    (results.map Block.id).Sublist (rows.map Block.id) := by
  induction rows generalizing results with
  | nil =>
      obtain rfl := Except.ok.inj h
      exact List.Sublist.refl _
  | cons row rows ih =>
      obtain ⟨result, others, hrow, hothers, rfl⟩ := classifyEach_cons_eq_ok_iff.mp h
      rcases result with _ | result
      · exact (ih hothers).cons row.id
      · rw [Option.toList_some, List.singleton_append, List.map_cons, List.map_cons,
          hkey row result hrow]
        exact (ih hothers).cons_cons row.id

end classifications

section transactions

variable {pool : PoolConfig} {block : Block} {db : Database}

theorem PPLNSRows_nil : PPLNSRows pool block [] = [] := by
  apply List.eq_nil_of_sublist_nil
  exact flatten_blockPages_sublist [] pool.id block (by decide)

/-- Without shares nothing stops a PPLNS settlement, and there are none afterwards. -/
theorem exists_processBlock_no_shares (hshares : db.shares = []) (now : ℕ) :
    ∃ result, processBlock .base PPLNSPaymentScheme.updateBalances pool .none now block db =
      .ok result ∧ result.1.shares = [] := by
  by_cases hstatus : block.status = .confirmed
  · have hnone : thrown .base (windowFactor pool) (blockRewardRemaining .base pool block) 0
        (PPLNSRows pool block db.shares) = none := by
      rw [hshares, PPLNSRows_nil]
      rfl
    obtain ⟨result, hresult⟩ := (@exists_processBlock_PPLNS_iff .base pool now block db hstatus).mpr
      hnone
    refine ⟨result, hresult, ?_⟩
    rw [(processBlock_PPLNS_ok hstatus hresult).2, hshares]
    cases windowCutoff .base (windowFactor pool) 0 (PPLNSRows pool block []) <;> rfl
  · have hfill : fillEfforts .base pool .none now block db =
        .ok (withEfforts .base pool block db) :=
      fillEfforts_eq_ok_iff.mpr ⟨effortsUnseen_none now block, rfl⟩
    have hkept : (withEfforts .base pool block db).status ≠ .confirmed := hstatus
    rw [processBlock, hfill]
    dsimp only
    cases hrow : (withEfforts .base pool block db).status with
    | pending => exact ⟨_, rfl, hshares⟩
    | orphaned => exact ⟨_, rfl, hshares⟩
    | confirmed => exact absurd hrow hkept

theorem exists_processBlocks_no_shares (blocks : List Block) (hshares : db.shares = []) (now : ℕ) :
    ∃ n, (processBlocks .base PPLNSPaymentScheme.updateBalances pool .none now blocks db).2 =
      .ok n := by
  induction blocks generalizing db now with
  | nil => exact ⟨now, rfl⟩
  | cons block blocks ih =>
      obtain ⟨⟨db', now'⟩, hblock, hshares'⟩ := @exists_processBlock_no_shares pool block db hshares
        now
      rw [processBlocks, runTx, hblock]
      exact ih hshares' now'

end transactions

section outages

variable {pool : PoolConfig} {classify : Block → Guarded Exception (Option Block)}
  {rows : List Block}

/-- A row that is returned as orphaned although a call for it failed. -/
def OrphanedUnanswered (classify : Block → Guarded Exception (Option Block)) (row : Block) : Prop :=
  (classify row).answered = false ∧
    ∃ result, (classify row).outcome = .ok (some result) ∧ result.status = .orphaned

theorem nodup_id_classifyEach (hkey : KeepsKey classify) (hids : (rows.map Block.id).Nodup)
    {results : List Block}
    (h : classifyEach classify (getPendingBlocksForPool rows pool.id) = .ok results) :
    (results.map Block.id).Nodup :=
  (hids.sublist (List.filter_sublist.map Block.id)).sublist (map_id_classifyEach hkey h)

/-- What is returned as orphaned is written as orphaned when no transaction fails. -/
theorem not_keepsUnanswered (hkey : KeepsKey classify) (hids : (rows.map Block.id).Nodup)
    {results : List Block}
    (hresults : classifyEach classify (getPendingBlocksForPool rows pool.id) = .ok results)
    {row : Block} (hrow : row ∈ getPendingBlocksForPool rows pool.id)
    (h : OrphanedUnanswered classify row) :
    ¬KeepsUnanswered pool (classifyEach classify) (fun row => (classify row).answered = false)
      rows := by
  intro hkeeps
  obtain ⟨hunanswered, result, hresult, horphaned⟩ := h
  have hfinished : ∃ n, (updatePoolBalances .base PPLNSPaymentScheme.updateBalances pool .none 0
      (classifyEach classify) { blocks := rows }).2 = .ok n := by
    rw [updatePoolBalances, hresults]
    exact exists_processBlocks_no_shares _ rfl 0
  obtain ⟨write, hwrite, hupdated⟩ := @updated_updatePoolBalances .base
    PPLNSPaymentScheme.updateBalances pool .none settlesOnly_PPLNS 0 (classifyEach classify)
    { blocks := rows } results hresults (nodup_id_classifyEach hkey hids hresults)
  have hwritten := (hupdated row).finished hfinished result
    ((mem_classifyEach hresults).mpr ⟨row, hrow, hresult⟩) (hkey row result hresult)
  have hmem : write row ∈ (updatePoolBalances .base PPLNSPaymentScheme.updateBalances pool .none 0
      (classifyEach classify) { blocks := rows }).1.blocks := by
    rw [hwrite]
    exact List.mem_map_of_mem (mem_pending_iff.mp hrow).1
  have hstatus := hwritten.status.trans horphaned
  obtain hconfirmed | hpending := hkeeps .base _ .none 0 { blocks := rows } settlesOnly_PPLNS rfl
    row hrow hunanswered (write row) hmem hwritten.id
  · rw [hstatus] at hconfirmed
    contradiction
  · have hstill := (mem_pending_iff.mp hpending).2.2
    rw [hstatus] at hstill
    contradiction

/-- A row that is not returned as orphaned is pending or confirmed after the cycle. -/
theorem pending_or_confirmed (hkey : KeepsKey classify) (hids : (rows.map Block.id).Nodup)
    {results : List Block}
    (hresults : classifyEach classify (getPendingBlocksForPool rows pool.id) = .ok results)
    {row row' : Block} (hrow : row ∈ getPendingBlocksForPool rows pool.id) {finished : Prop}
    (hupdated : Updated results finished row row')
    (h : ∀ result, (classify row).outcome = .ok (some result) → result.status ≠ .orphaned) :
    row'.poolId = pool.id ∧ (row'.status = .confirmed ∨ row'.status = .pending) := by
  obtain ⟨hmem, hpool, hpending⟩ := mem_pending_iff.mp hrow
  by_cases hnone : ∀ block ∈ results, block.id ≠ row.id
  · rw [hupdated.kept hnone]
    exact ⟨hpool, Or.inr hpending⟩
  · push Not at hnone
    obtain ⟨block, hblock, hid⟩ := hnone
    obtain ⟨other, hother, hresult⟩ := (mem_classifyEach hresults).mp hblock
    obtain rfl : other = row := List.inj_on_of_nodup_map hids (mem_pending_iff.mp hother).1 hmem
      ((hkey other block hresult).symm.trans hid)
    obtain rfl | hwritten := hupdated.written block hblock hid
    · exact ⟨hpool, Or.inr hpending⟩
    · rw [hwritten.poolId, hwritten.status]
      refine ⟨hpool, ?_⟩
      have hnot := h block hresult
      cases hstatus : block.status with
      | pending => exact Or.inr rfl
      | orphaned => exact absurd hstatus hnot
      | confirmed => exact Or.inl rfl

/-- Rows for which a call failed are kept exactly when a classification throws, or returns none of
them as orphaned. -/
theorem keepsUnanswered_iff (hkey : KeepsKey classify) (hids : (rows.map Block.id).Nodup) :
    KeepsUnanswered pool (classifyEach classify) (fun row => (classify row).answered = false)
        rows ↔
      (∃ row ∈ getPendingBlocksForPool rows pool.id, ∃ e, (classify row).outcome = .error e) ∨
        ∀ row ∈ getPendingBlocksForPool rows pool.id, ¬OrphanedUnanswered classify row := by
  constructor
  · intro hkeeps
    by_contra hnot
    rw [not_or] at hnot
    obtain ⟨hok, hnot⟩ := hnot
    push Not at hok hnot
    obtain ⟨row, hrow, horphaned⟩ := hnot
    have hall : ∀ row ∈ getPendingBlocksForPool rows pool.id,
        ∃ result, (classify row).outcome = .ok result := by
      intro row hrow
      cases houtcome : (classify row).outcome with
      | error e => exact absurd houtcome (hok row hrow e)
      | ok result => exact ⟨result, rfl⟩
    obtain ⟨results, hresults⟩ := exists_classifyEach_iff.mpr hall
    exact not_keepsUnanswered hkey hids hresults hrow horphaned hkeeps
  · rintro h handler scheme ct now db hscheme rfl row hrow hunanswered row' hrow' hid
    have hmem := (mem_pending_iff.mp hrow).1
    cases hresults : classifyEach classify (getPendingBlocksForPool db.blocks pool.id) with
    | error e =>
        rw [updatePoolBalances, hresults] at hrow' ⊢
        obtain rfl := List.inj_on_of_nodup_map hids hrow' hmem hid
        exact Or.inr hrow
    | ok results =>
        have hnot : ¬OrphanedUnanswered classify row := by
          obtain ⟨failed, hfailed, e, he⟩ | h := h
          · obtain ⟨result, hresult⟩ :=
              exists_classifyEach_iff.mp ⟨results, hresults⟩ failed hfailed
            rw [he] at hresult
            contradiction
          · exact h row hrow
        obtain ⟨write, hwrite, hupdated⟩ := @updated_updatePoolBalances handler scheme pool ct
          hscheme now (classifyEach classify) db results hresults
          (nodup_id_classifyEach hkey hids hresults)
        rw [hwrite] at hrow'
        obtain ⟨first, hfirst, rfl⟩ := List.mem_map.mp hrow'
        obtain rfl :=
          List.inj_on_of_nodup_map hids hfirst hmem ((hupdated first).id_eq.symm.trans hid)
        obtain ⟨hpool, hstatus⟩ := pending_or_confirmed hkey hids hresults hrow (hupdated first)
          fun result hresult horphaned => hnot ⟨hunanswered, result, hresult, horphaned⟩
        refine hstatus.imp_right fun hpending => mem_pending_iff.mpr ⟨?_, hpool, hpending⟩
        rw [hwrite]
        exact List.mem_map_of_mem hfirst

end outages

end Miningcore
