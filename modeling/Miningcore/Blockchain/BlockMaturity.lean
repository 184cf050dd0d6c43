import Miningcore.Blockchain.Beam.BlockClassification
import Miningcore.Blockchain.Ethereum.OwnUncles
import Miningcore.Blockchain.Xelis.BlockClassification

/-!
# Maturity of classified blocks

Three handlers take the confirmations of a row for the difference of the head and the height of the
row, a 64-bit number. A head that is far enough above the height is told as such, and so is nearly
every head below it.
-/

namespace Miningcore

open Foundation BlockRepository

/-- A head below a height, whose difference counts as enough confirmations. -/
def WrapsAround (required head height : ℕ) : Prop :=
  head < height ∧ height + required ≤ head + 2 ^ 64

theorem le_subUlong_iff {required head height : ℕ} (hhead : head < 2 ^ 64)
    (hheight : height < 2 ^ 64) :
    required ≤ subUlong head height ↔
      height + required ≤ head ∨ WrapsAround required head height := by
  rw [WrapsAround]
  rcases le_or_gt height head with hle | hlt
  · rw [subUlong_of_le hhead hle]
    omega
  · rw [subUlong_of_lt hheight hlt]
    omega

/-- Between nothing and everything. -/
def InUnit : FloatingPoint → Prop
  | .finite x => 0 ≤ x ∧ x ≤ 1
  | _ => False

theorem inUnit_min_div (n required : ℕ) :
    InUnit (.finite (min 1 ((n : ℚ) / required))) :=
  ⟨le_min zero_le_one (div_nonneg n.cast_nonneg required.cast_nonneg), min_le_left _ _⟩

/-- A row that waits for its confirmations. -/
structure IsPendingRow (row : Block) : Prop where
  status : row.status = .pending
  fits : row.blockHeight < 2 ^ 64
  progress : InUnit (.finite row.confirmationProgress)

/-- What a classification may leave of a row: it is confirmed with the required confirmations only,
and its progress is a part of them. -/
structure ClassifiedBlock.Lawful (required : ℤ) (head : Option ℕ) (result : ClassifiedBlock) :
    Prop where
  mature : result.block.status = .confirmed →
    ∃ latest ∈ head, (result.block.blockHeight : ℤ) + required ≤ latest
  progress : InUnit result.confirmationProgress

/-- A row that is left as it was is lawful. -/
theorem IsPendingRow.lawful {row : Block} (h : IsPendingRow row) (required : ℤ)
    (head : Option ℕ) : row.classified.Lawful required head where
  mature hconfirmed := by
    have hpending := h.status
    change row.status = .confirmed at hconfirmed
    rw [hpending] at hconfirmed
    cases hconfirmed
  progress := h.progress

namespace EthereumPayoutHandler

open Ethereum

section matured

variable (config : EthereumClassifyConfig) (pool : PoolConfig) (rows : List Block) (node : Node)
  (row : Block)

/-- The pool is paid for the block at the height of a row, or for an uncle of that height. -/
def PaysMined : Prop :=
  if isDuplicated pool rows row then
    isPaid config pool rows row row.blockHeight row.blockHeight = true
  else ∃ current, node.current row.id row.blockHeight = some current ∧
    sameAddress current.miner pool.address = true

/-- A row is confirmed at its height, or at that of the uncle it becomes. -/
def ConfirmedAt (latest height : ℕ) : Prop :=
  (Mined pool node row ∧ minConfirmations ≤ behind latest row.blockHeight ∧
      PaysMined config pool rows node row ∧ height = row.blockHeight) ∨
    ¬ Mined pool node row ∧ ∃ found ∈ matched config pool rows node latest row,
      isPaid config pool rows row found.2.height found.1 = true ∧ height = found.2.height

/-- Where a row would be confirmed, the head is not below the height of the block or uncle. -/
structure HeadKeepsUp (latest : ℕ) : Prop where
  mined : Mined pool node row → PaysMined config pool rows node row →
    ¬ WrapsAround minConfirmations latest row.blockHeight
  missed : ¬ Mined pool node row → ∀ found ∈ matched config pool rows node latest row,
    isPaid config pool rows row found.2.height found.1 = true →
      ¬ WrapsAround minConfirmations latest found.2.height

/-- The heights of the answers are 64-bit numbers. -/
structure FitsUlong : Prop where
  latest : ∀ id, ∀ latest ∈ node.latest id, latest < 2 ^ 64
  uncles : ∀ id height index, ∀ uncle ∈ node.uncleAt id height index, uncle.height < 2 ^ 64

end matured

variable {config : EthereumClassifyConfig} {pool : PoolConfig} {rows : List Block} {node : Node}
  {latest : ℕ} {row block : Block}

theorem inUnit_withProgress (latest : ℕ) (row : Block) :
    InUnit (.finite (withProgress latest row).confirmationProgress) :=
  inUnit_min_div (behind latest row.blockHeight) minConfirmations

theorem inUnit_asUncle (h : InUnit (.finite row.confirmationProgress)) (reward : ℚ) :
    InUnit (.finite (asUncle row reward).confirmationProgress) := by
  rw [asUncle]
  split
  · exact ⟨zero_le_one, le_rfl⟩
  · exact h

theorem inUnit_giveUp (h : InUnit (.finite row.confirmationProgress)) :
    InUnit (.finite (giveUp row).confirmationProgress) := by
  rw [giveUp]
  split
  · exact h
  · exact h

theorem inUnit_classifyMined {info : ChainBlock} (hrow : InUnit (.finite row.confirmationProgress))
    (h : classifyMined config pool rows node row info = .ok block) :
    InUnit (.finite block.confirmationProgress) := by
  rw [classifyMined] at h
  split at h
  · split at h
    · contradiction
    · obtain rfl := Except.ok.inj h
      exact ⟨zero_le_one, le_rfl⟩
  · split at h
    · contradiction
    · split at h
      · split at h
        · contradiction
        · obtain rfl := Except.ok.inj h
          exact ⟨zero_le_one, le_rfl⟩
      · obtain rfl := Except.ok.inj h
        exact hrow

theorem inUnit_classifyMissed
    (h : classifyMissed config pool rows node latest (withProgress latest row) = .ok block) :
    InUnit (.finite block.confirmationProgress) := by
  obtain ⟨expected, hends⟩ := exists_of_classifyMissed h
  split at hends
  · obtain ⟨reward, _, rfl⟩ := hends
    exact inUnit_asUncle (by exact inUnit_withProgress latest row) reward
  · rw [hends]
    exact inUnit_giveUp (inUnit_withProgress latest row)

/-- A row at a height whose block the pool has mined is decided about when it has matured. -/
theorem exists_of_mined (hmined : Mined pool node row)
    (h : classifyBlock config pool rows node row = .ok block) :
    ∃ latest ∈ node.latest row.id,
      if minConfirmations ≤ behind latest row.blockHeight then
        ∃ info, classifyMined config pool rows node (withProgress latest row) info = .ok block
      else block = withProgress latest row := by
  obtain ⟨latest, hlatest, ⟨-, hmatured, hblock⟩ | ⟨-, hyoung, hblock⟩ | ⟨hmissed, -⟩⟩ :=
    classifyBlock_cases h
  · refine ⟨latest, hlatest, ?_⟩
    rw [if_pos hmatured]
    exact hblock
  · refine ⟨latest, hlatest, ?_⟩
    rw [if_neg (not_le.mpr hyoung)]
    exact hblock
  · exact absurd hmined hmissed

theorem exists_of_not_mined (hmissed : ¬ Mined pool node row)
    (h : classifyBlock config pool rows node row = .ok block) :
    ∃ latest ∈ node.latest row.id,
      classifyMissed config pool rows node latest (withProgress latest row) = .ok block := by
  obtain ⟨latest, hlatest, ⟨hmined, -⟩ | ⟨hmined, -⟩ | ⟨-, hblock⟩⟩ := classifyBlock_cases h
  · exact absurd hmined hmissed
  · exact absurd hmined hmissed
  · exact ⟨latest, hlatest, hblock⟩

theorem inUnit_classifyBlock (h : classifyBlock config pool rows node row = .ok block) :
    InUnit (.finite block.confirmationProgress) := by
  by_cases hmined : Mined pool node row
  · obtain ⟨latest, _, hblock⟩ := exists_of_mined hmined h
    split at hblock
    · obtain ⟨info, hblock⟩ := hblock
      exact inUnit_classifyMined (inUnit_withProgress latest row) hblock
    · rw [hblock]
      exact inUnit_withProgress latest row
  · obtain ⟨latest, _, hblock⟩ := exists_of_not_mined hmined h
    exact inUnit_classifyMissed hblock

theorem blockHeight_classifyMined {info : ChainBlock}
    (h : classifyMined config pool rows node row info = .ok block) :
    block.blockHeight = row.blockHeight := by
  rw [classifyMined] at h
  split at h
  · split at h
    · contradiction
    · rename_i reward _
      obtain rfl := Except.ok.inj h
      exact (asUncle_cases row reward).2.2.2.2
  · split at h
    · contradiction
    · split at h
      · split at h
        · contradiction
        · obtain rfl := Except.ok.inj h
          rfl
      · obtain rfl := Except.ok.inj h
        rfl

/-- A mature row is confirmed when the pool is paid. -/
theorem status_classifyMined_iff {info : ChainBlock} (hpending : row.status = .pending)
    (h : classifyMined config pool rows node row info = .ok block) :
    block.status = .confirmed ↔ PaysMined config pool rows node row := by
  have hstatus := status_classifyMined hpending h
  rw [PaysMined]
  split at hstatus
  · rename_i hduplicated
    rw [if_pos hduplicated, hstatus.2]
    simp
  · rename_i hduplicated
    rw [if_neg hduplicated]
    obtain ⟨current, hcurrent, hverdict⟩ := hstatus
    rw [hcurrent]
    split at hverdict
    · rename_i hminer
      simp [hverdict.1, hminer]
    · rename_i hminer
      simp [hverdict, hminer]

/-- Where a row is confirmed, and at which height. -/
theorem confirmedAt_iff (hpending : row.status = .pending)
    (h : classifyBlock config pool rows node row = .ok block) :
    ∃ latest ∈ node.latest row.id, ∀ height,
      block.status = .confirmed ∧ height = block.blockHeight ↔
        ConfirmedAt config pool rows node row latest height := by
  by_cases hmined : Mined pool node row
  · obtain ⟨latest, hlatest, hblock⟩ := exists_of_mined hmined h
    refine ⟨latest, hlatest, fun height => ?_⟩
    simp only [ConfirmedAt, hmined, true_and, not_true_eq_false, false_and, or_false]
    split at hblock
    · rename_i hmatured
      obtain ⟨info, hblock⟩ := hblock
      have hheight := blockHeight_classifyMined hblock
      have hwaiting : (withProgress latest row).status = .pending := hpending
      have hstatus := status_classifyMined_iff hwaiting hblock
      change _ ↔ PaysMined config pool rows node row at hstatus
      rw [hstatus, show block.blockHeight = row.blockHeight from hheight]
      simp only [hmatured, true_and]
    · rename_i hyoung
      rw [hblock]
      have hnot : (withProgress latest row).status ≠ .confirmed := fun hc => by
        cases hpending.symm.trans hc
      simp [hyoung, hnot]
  · obtain ⟨latest, hlatest, hblock⟩ := exists_of_not_mined hmined h
    refine ⟨latest, hlatest, fun height => ?_⟩
    simp only [ConfirmedAt, hmined, false_and, false_or, not_false_eq_true, true_and]
    have hstatus := status_classifyMissed hpending hblock
    obtain ⟨expected, hends⟩ := exists_of_classifyMissed hblock
    cases hmatch : matched config pool rows node latest row with
    | none =>
        rw [hmatch] at hstatus
        have hnot : block.status ≠ .confirmed := by
          rw [hstatus]
          split
          · exact BlockStatus.noConfusion
          · exact BlockStatus.noConfusion
        simp [hnot]
    | some found =>
        obtain ⟨shown, uncle⟩ := found
        rw [hmatch] at hstatus hends
        obtain ⟨reward, -, hblock⟩ := hends
        have hheight : block.blockHeight = uncle.height := by
          rw [hblock]
          exact (asUncle_cases _ reward).2.2.2.2
        rw [hheight, hstatus.2]
        simp

/-- An uncle that a row becomes is one the node has shown, and counts as mature. -/
theorem exists_of_mem_matched {found : ℕ × Uncle}
    (h : found ∈ matched config pool rows node latest row) :
    minConfirmations ≤ behind latest found.2.height ∧
      ∃ height index, found.2 ∈ node.uncleAt row.id height index := by
  obtain ⟨hsearched, hmatured⟩ := Option.mem_filter_iff.mp h
  refine ⟨of_decide_eq_true hmatured, ?_⟩
  obtain ⟨height, _, hends⟩ := List.exists_of_findSome?_eq_some hsearched
  obtain ⟨info, _, hends⟩ := Option.bind_eq_some_iff.mp hends
  obtain ⟨uncle, huncle, rfl⟩ := Option.map_eq_some_iff.mp hends
  obtain ⟨hown, _⟩ := Option.filter_eq_some_iff.mp huncle
  obtain ⟨⟨index, _, hshown⟩, _⟩ := ownUncle_eq_some hown
  exact ⟨height, index, hshown⟩

/-- A row is left lawful exactly where the head keeps up with what it would be confirmed for. -/
theorem lawful_classifyBlock_iff (hnode : FitsUlong node) (hrow : IsPendingRow row)
    (h : classifyBlock config pool rows node row = .ok block) :
    block.classified.Lawful minConfirmations (node.latest row.id) ↔
      ∀ latest ∈ node.latest row.id, HeadKeepsUp config pool rows node row latest := by
  obtain ⟨latest, hlatest, hconfirmed⟩ := confirmedAt_iff hrow.status h
  have hhead := hnode.latest row.id latest hlatest
  have huncle : ∀ found ∈ matched config pool rows node latest row,
      minConfirmations ≤ behind latest found.2.height ∧ found.2.height < 2 ^ 64 := by
    intro found hfound
    obtain ⟨hmatured, height, index, huncle⟩ := exists_of_mem_matched hfound
    exact ⟨hmatured, hnode.uncles _ _ _ _ huncle⟩
  have hiff : block.classified.Lawful minConfirmations (node.latest row.id) ↔
      ∀ height, ConfirmedAt config pool rows node row latest height →
        height + minConfirmations ≤ latest := by
    constructor
    · intro hlawful height hat
      obtain ⟨hstatus, rfl⟩ := (hconfirmed height).mpr hat
      obtain ⟨other, hother, hle⟩ := hlawful.mature hstatus
      obtain rfl := Option.mem_unique hlatest hother
      exact_mod_cast hle
    · intro hall
      refine ⟨fun hstatus => ⟨latest, hlatest, ?_⟩, inUnit_classifyBlock h⟩
      exact_mod_cast hall _ ((hconfirmed _).mp ⟨hstatus, rfl⟩)
  rw [hiff]
  constructor
  · intro hall other hother
    obtain rfl := Option.mem_unique hlatest hother
    constructor
    · intro hmined hpays hwraps
      have hmatured := (le_subUlong_iff hhead hrow.fits).mpr (Or.inr hwraps)
      have hle := hall _ (Or.inl ⟨hmined, hmatured, hpays, rfl⟩)
      exact absurd hwraps.1 (by omega)
    · intro hmissed found hfound hpaid hwraps
      have hle := hall _ (Or.inr ⟨hmissed, found, hfound, hpaid, rfl⟩)
      exact absurd hwraps.1 (by omega)
  · intro hkeeps height hat
    obtain ⟨hmined, hmissed⟩ := hkeeps latest hlatest
    obtain ⟨hm, hmatured, hpays, rfl⟩ | ⟨hm, found, hfound, hpaid, rfl⟩ := hat
    · exact ((le_subUlong_iff hhead hrow.fits).mp hmatured).resolve_right (hmined hm hpays)
    · obtain ⟨hmatured, hfits⟩ := huncle found hfound
      exact ((le_subUlong_iff hhead hfits).mp hmatured).resolve_right
        (hmissed hm found hfound hpaid)

end EthereumPayoutHandler

namespace BeamPayoutHandler

/-- Where a row would be confirmed, the head is not below its height. -/
def HeadKeepsUp (node : Node) (row : Block) (latest : ℕ) : Prop :=
  node.header.error = none → isOrphaned row node.header.response = false →
    ¬ WrapsAround payoutMinBlockConfirmations latest row.blockHeight

theorem lawful_classifyBlock_iff {latest : ℕ} {node : Node} {row block : Block}
    (hlatest : latest < 2 ^ 64) (hrow : IsPendingRow row)
    (h : classifyBlock latest node row = .ok (some block)) :
    block.classified.Lawful payoutMinBlockConfirmations (some latest) ↔
      HeadKeepsUp node row latest := by
  have hmatured : payoutMinBlockConfirmations ≤ subUlong latest row.blockHeight ↔ _ :=
    le_subUlong_iff hlatest hrow.fits
  rw [classifyBlock] at h
  split at h
  · cases h
  · rename_i herror
    have hnone : node.header.error = none := by simpa using herror
    dsimp only at h
    split at h
    · rename_i horphaned
      obtain rfl := Option.some.inj (Except.ok.inj h)
      refine iff_of_true ⟨fun hconfirmed => ?_, inUnit_min_div _ _⟩ fun _ hnot => ?_
      · cases hconfirmed
      · cases horphaned.symm.trans hnot
    · rename_i hfound
      rw [Bool.not_eq_true] at hfound
      split at h
      · rename_i hdeep
        split at h
        · cases h
        · obtain rfl := Option.some.inj (Except.ok.inj h)
          constructor
          · intro hlawful _ _ hwraps
            obtain ⟨other, hother, hle⟩ := hlawful.mature rfl
            obtain rfl := Option.some.inj hother
            have hlt := hwraps.1
            change (row.blockHeight : ℤ) + _ ≤ _ at hle
            omega
          · intro hkeeps
            refine ⟨fun _ => ⟨latest, rfl, ?_⟩, zero_le_one, le_rfl⟩
            exact_mod_cast (hmatured.mp hdeep).resolve_right (hkeeps hnone hfound)
      · rename_i hshallow
        obtain rfl := Option.some.inj (Except.ok.inj h)
        refine iff_of_true ⟨fun hconfirmed => ?_, inUnit_min_div _ _⟩ fun _ _ hwraps => ?_
        · cases hrow.status.symm.trans hconfirmed
        · exact hshallow (hmatured.mpr (Or.inr hwraps))

/-- A row that is not returned has a request that has failed. -/
theorem headKeepsUp_of_none {latest : ℕ} {node : Node} {row : Block}
    (h : classifyBlock latest node row = .ok none) : HeadKeepsUp node row latest := by
  intro hnone
  rw [classifyBlock, hnone] at h
  simp only [Option.isSome_none, Bool.false_eq_true, if_false] at h
  split at h
  · cases h
  · split at h
    · split at h
      · cases h
      · cases h
    · cases h

end BeamPayoutHandler

namespace XelisPayoutHandler

variable {pool : PoolConfig} {minConfirmations : ℤ} {topoHeight height : ℕ}

theorem confirmationProgress_of_ne_zero (h : minConfirmations ≠ 0) (topoHeight height : ℕ) :
    confirmationProgress minConfirmations topoHeight height =
      .finite (min 1 ((subUlong topoHeight height : ℚ) / minConfirmations)) := by
  have hne : (minConfirmations : ℚ) ≠ 0 := by exact_mod_cast h
  have hdiv : FloatingPoint.div .exact (.finite (subUlong topoHeight height))
      (.finite minConfirmations) =
        .finite ((subUlong topoHeight height : ℚ) / minConfirmations) := if_neg hne
  rw [confirmationProgress, hdiv, FloatingPoint.min_finite]
  split
  · rename_i hlt
    rw [min_eq_right hlt.le]
  · rename_i hnot
    rw [min_eq_left (not_lt.mp hnot)]

/-- The double that a division by zero leaves. -/
theorem confirmationProgress_zero (topoHeight height : ℕ) :
    confirmationProgress 0 topoHeight height =
      if subUlong topoHeight height = 0 then .nan else .finite 1 := by
  by_cases hzero : subUlong topoHeight height = 0
  · simp [confirmationProgress, hzero, FloatingPoint.div, FloatingPoint.min]
  · have hnonneg : ¬ (subUlong topoHeight height : ℚ) < 0 := not_lt.mpr (Nat.cast_nonneg _)
    simp [confirmationProgress, hzero, FloatingPoint.div, FloatingPoint.min, FloatingPoint.lt,
      hnonneg]

/-- A progress is complete when the difference is at least as large as required. -/
theorem complete_iff :
    FloatingPoint.le (.finite 1) (confirmationProgress minConfirmations topoHeight height) = true ↔
      0 ≤ minConfirmations ∧ minConfirmations ≤ subUlong topoHeight height ∧
        (minConfirmations = 0 → subUlong topoHeight height ≠ 0) := by
  rcases lt_trichotomy minConfirmations 0 with hneg | rfl | hpos
  · have hcast : (minConfirmations : ℚ) ≤ 0 := by exact_mod_cast hneg.le
    have hquotient : (subUlong topoHeight height : ℚ) / minConfirmations ≤ 0 :=
      div_nonpos_of_nonneg_of_nonpos (Nat.cast_nonneg _) hcast
    rw [confirmationProgress_of_ne_zero hneg.ne, FloatingPoint.le_finite, decide_eq_true_eq,
      le_min_iff, and_iff_right le_rfl]
    exact iff_of_false (by linarith) fun hnonneg => absurd hnonneg.1 (by omega)
  · rw [confirmationProgress_zero]
    by_cases hzero : subUlong topoHeight height = 0
    · simp [hzero, FloatingPoint.le]
    · simp [hzero]
  · have hcast : (0 : ℚ) < minConfirmations := by exact_mod_cast hpos
    rw [confirmationProgress_of_ne_zero hpos.ne', FloatingPoint.le_finite, decide_eq_true_eq,
      le_min_iff, and_iff_right le_rfl, le_div_iff₀ hcast, one_mul]
    simp only [hpos.le, hpos.ne', true_and, false_imp_iff, and_true]
    exact_mod_cast Iff.rfl

/-- A progress is no part of the whole when nothing is required and nothing there, or less than
nothing is required. -/
theorem inUnit_confirmationProgress_iff :
    InUnit (confirmationProgress minConfirmations topoHeight height) ↔
      (minConfirmations = 0 → subUlong topoHeight height ≠ 0) ∧
        (minConfirmations < 0 → subUlong topoHeight height = 0) := by
  rcases lt_trichotomy minConfirmations 0 with hneg | rfl | hpos
  · have hcast : (minConfirmations : ℚ) < 0 := by exact_mod_cast hneg
    rw [confirmationProgress_of_ne_zero hneg.ne]
    simp only [InUnit, hneg, hneg.ne, false_imp_iff, true_imp_iff, true_and, le_min_iff,
      zero_le_one, min_le_left, and_true]
    constructor
    · intro hquotient
      have hle := mul_nonpos_of_nonneg_of_nonpos hquotient hcast.le
      rw [div_mul_cancel₀ _ hcast.ne] at hle
      exact_mod_cast le_antisymm hle (Nat.cast_nonneg _)
    · intro hzero
      simp [hzero]
  · rw [confirmationProgress_zero]
    by_cases hzero : subUlong topoHeight height = 0
    · simp [hzero, InUnit]
    · simp [hzero, InUnit]
  · have hcast : (0 : ℚ) < minConfirmations := by exact_mod_cast hpos
    rw [confirmationProgress_of_ne_zero hpos.ne']
    refine iff_of_true ⟨le_min zero_le_one ?_, min_le_left _ _⟩ ⟨fun hzero => ?_, fun hneg => ?_⟩
    · exact div_nonneg (Nat.cast_nonneg _) hcast.le
    · omega
    · omega

/-- Where a row would be confirmed, the head is not below its height; and its progress is a number
between nothing and everything, as it is with a positive number of required confirmations. -/
structure HeadKeepsUp (pool : PoolConfig) (minConfirmations : ℤ)
    (answer : RpcResponse GetBlockByHashResponse) (row : Block) (topoHeight : ℕ) : Prop where
  ahead : ∀ response ∈ answer.response, answer.error = none →
    response.miner = some pool.address → 0 ≤ minConfirmations → 0 < response.minerReward →
      ¬ WrapsAround minConfirmations.toNat topoHeight row.blockHeight
  divides : ∀ response ∈ answer.response, answer.error = none →
    response.miner = some pool.address →
      (minConfirmations = 0 → topoHeight ≠ row.blockHeight) ∧
        (minConfirmations < 0 → topoHeight = row.blockHeight)

section answers

variable {answer : RpcResponse GetBlockByHashResponse} {row : Block} {result : ClassifiedBlock}

theorem headKeepsUp_of_error (h : answer.error ≠ none) :
    HeadKeepsUp pool minConfirmations answer row topoHeight :=
  ⟨fun _ _ hnone => absurd hnone h, fun _ _ hnone => absurd hnone h⟩

theorem headKeepsUp_of_miner {response : GetBlockByHashResponse}
    (hresponse : answer.response = some response) (h : response.miner ≠ some pool.address) :
    HeadKeepsUp pool minConfirmations answer row topoHeight := by
  constructor
  · intro other hother _ hminer
    obtain rfl := Option.mem_unique hresponse hother
    exact absurd hminer h
  · intro other hother _ hminer
    obtain rfl := Option.mem_unique hresponse hother
    exact absurd hminer h

theorem headKeepsUp_iff {response : GetBlockByHashResponse} (htopo : topoHeight < 2 ^ 64)
    (hrow : IsPendingRow row) (hnone : answer.error = none)
    (hresponse : answer.response = some response) (hminer : response.miner = some pool.address) :
    HeadKeepsUp pool minConfirmations answer row topoHeight ↔
      (0 ≤ minConfirmations → 0 < response.minerReward →
        ¬ WrapsAround minConfirmations.toNat topoHeight row.blockHeight) ∧
      InUnit (confirmationProgress minConfirmations topoHeight row.blockHeight) := by
  rw [inUnit_confirmationProgress_iff, Ne, subUlong_eq_zero_iff htopo hrow.fits]
  constructor
  · rintro ⟨hahead, hdivides⟩
    exact ⟨hahead response hresponse hnone hminer, hdivides response hresponse hnone hminer⟩
  · rintro ⟨hahead, hdivides⟩
    constructor
    · intro other hother _ _
      obtain rfl := Option.mem_unique hresponse hother
      exact hahead
    · intro other hother _ _
      exact hdivides

/-- A row that has not matured is not taken for one by a difference that wraps around. -/
theorem not_wrapsAround_of_incomplete (htopo : topoHeight < 2 ^ 64)
    (hheight : height < 2 ^ 64) (h : 0 ≤ minConfirmations)
    (hprogress : ¬ FloatingPoint.le (.finite 1)
      (confirmationProgress minConfirmations topoHeight height) = true) :
    ¬ WrapsAround minConfirmations.toNat topoHeight height := by
  intro hwraps
  have hle := (le_subUlong_iff htopo hheight).mpr (Or.inr hwraps)
  have hne : subUlong topoHeight height ≠ 0 := by
    rw [Ne, subUlong_eq_zero_iff htopo hheight]
    exact hwraps.1.ne
  exact hprogress (complete_iff.mpr ⟨h, by omega, fun _ => hne⟩)

theorem lawful_classifyBlock_iff (htopo : topoHeight < 2 ^ 64) (hrow : IsPendingRow row)
    (h : classifyBlock pool minConfirmations topoHeight answer row = .ok (some result)) :
    result.Lawful minConfirmations (some topoHeight) ↔
      HeadKeepsUp pool minConfirmations answer row topoHeight := by
  have hlost : ({ row with status := .orphaned, reward := 0 } : Block).classified.Lawful
      minConfirmations (some topoHeight) :=
    ⟨fun hconfirmed => by simp [Block.classified] at hconfirmed, hrow.progress⟩
  rw [classifyBlock] at h
  split at h
  · rename_i error herror
    split at h
    · obtain rfl := Option.some.inj (Except.ok.inj h)
      exact iff_of_true hlost (headKeepsUp_of_error (by simp [herror]))
    · cases h
  · cases h
  · rename_i response hnone hresponse
    split at h
    · rename_i hother
      obtain rfl := Option.some.inj (Except.ok.inj h)
      exact iff_of_true hlost (headKeepsUp_of_miner hresponse hother)
    · rename_i hminer
      rw [not_not] at hminer
      rw [headKeepsUp_iff htopo hrow hnone hresponse hminer]
      dsimp only at h
      split at h
      · rename_i hcomplete
        obtain ⟨hnonneg, hle, hne⟩ := complete_iff.mp hcomplete
        have hprogress : InUnit
            (confirmationProgress minConfirmations topoHeight row.blockHeight) :=
          inUnit_confirmationProgress_iff.mpr ⟨hne, fun hneg => by omega⟩
        rw [and_iff_left hprogress]
        split at h
        · rename_i hreward
          obtain rfl := Option.some.inj (Except.ok.inj h)
          have hpaid : 0 < response.minerReward := by
            by_contra hzero
            simp [Nat.eq_zero_of_not_pos hzero] at hreward
          constructor
          · intro hlawful _ _ hwraps
            obtain ⟨other, hother, hahead⟩ := hlawful.mature rfl
            obtain rfl := Option.some.inj hother
            have hlt := hwraps.1
            change (row.blockHeight : ℤ) + _ ≤ _ at hahead
            omega
          · intro hkeeps
            refine ⟨fun _ => ⟨topoHeight, rfl, ?_⟩, zero_le_one, le_rfl⟩
            have hahead := ((le_subUlong_iff htopo hrow.fits).mp
              (Int.toNat_le.mpr hle)).resolve_right (hkeeps hnonneg hpaid)
            change (row.blockHeight : ℤ) + _ ≤ _
            omega
        · rename_i hreward
          obtain rfl := Option.some.inj (Except.ok.inj h)
          refine iff_of_true ⟨fun hconfirmed => ?_, zero_le_one, le_rfl⟩ fun _ hpaid => ?_
          · cases hconfirmed
          · have hpos : (0 : ℚ) < response.minerReward / smallestUnit :=
              div_pos (by exact_mod_cast hpaid) (by norm_num [smallestUnit])
            exact absurd hpos hreward
      · rename_i hincomplete
        obtain rfl := Option.some.inj (Except.ok.inj h)
        constructor
        · intro hlawful
          exact ⟨fun hnonneg _ =>
            not_wrapsAround_of_incomplete htopo hrow.fits hnonneg hincomplete, hlawful.progress⟩
        · rintro ⟨_, hprogress⟩
          refine ⟨fun hconfirmed => ?_, hprogress⟩
          cases hrow.status.symm.trans hconfirmed

theorem headKeepsUp_of_none
    (h : classifyBlock pool minConfirmations topoHeight answer row = .ok none) :
    HeadKeepsUp pool minConfirmations answer row topoHeight := by
  apply headKeepsUp_of_error
  intro hnone
  rw [classifyBlock, hnone] at h
  split at h
  · rename_i hsome
    cases hsome
  · cases h
  · split at h
    · cases h
    · dsimp only at h
      split at h
      · split at h
        · cases h
        · cases h
      · cases h

end answers

end XelisPayoutHandler

/-! ### The three handlers -/

/-- A call of `ClassifyBlocksAsync`, with what the node answers to it. -/
inductive Classification
  | ethereum (config : EthereumClassifyConfig) (pool : PoolConfig) (rows : List Block)
      (node : Ethereum.Node)
  | beam (lastHeight : Except Exception ℕ) (node : Block → BeamPayoutHandler.Node)
  | xelis (pool : PoolConfig) (minConfirmations : ℤ) (node : XelisPayoutHandler.Node)

namespace Classification

theorem exists_of_map_eq_ok {α β ε : Type} {f : α → β} {x : Except ε α} {b : β}
    (h : x.map f = .ok b) : ∃ a, x = .ok a ∧ f a = b := by
  cases x with
  | error e => cases h
  | ok a => exact ⟨a, rfl, Except.ok.inj h⟩

def classifyBlocks (blocks : List Block) : Classification → Except Exception (List ClassifiedBlock)
  | ethereum config pool rows node =>
      (EthereumPayoutHandler.classifyBlocks config pool rows node blocks).map
        (List.map Block.classified)
  | beam lastHeight node =>
      (BeamPayoutHandler.classifyBlocks lastHeight node blocks).map (List.map Block.classified)
  | xelis pool minConfirmations node =>
      XelisPayoutHandler.classifyBlocks pool minConfirmations node blocks

/-- The confirmations a row needs. -/
def required : Classification → ℤ
  | ethereum _ _ _ _ => EthereumPayoutHandler.minConfirmations
  | beam _ _ => BeamPayoutHandler.payoutMinBlockConfirmations
  | xelis _ minConfirmations _ => minConfirmations

/-- The head that a row is classified with. -/
def head (id : ℕ) : Classification → Option ℕ
  | ethereum _ _ _ node => node.latest id
  | beam lastHeight _ => lastHeight.toOption
  | xelis _ _ node => node.chainInfo.response

/-- The heights of the answers are 64-bit numbers. -/
def FitsUlong : Classification → Prop
  | ethereum _ _ _ node => EthereumPayoutHandler.FitsUlong node
  | beam lastHeight _ => ∀ latest ∈ lastHeight.toOption, latest < 2 ^ 64
  | xelis _ _ node => ∀ topoHeight ∈ node.chainInfo.response, topoHeight < 2 ^ 64

/-- Where a row would be confirmed, the head is not below the height it is confirmed at. -/
def HeadKeepsUp (row : Block) : Classification → Prop
  | ethereum config pool rows node => node.enoughPeers = true →
      ∀ latest ∈ node.latest row.id,
        EthereumPayoutHandler.HeadKeepsUp config pool rows node row latest
  | beam lastHeight node => ∀ latest ∈ lastHeight.toOption,
      BeamPayoutHandler.HeadKeepsUp (node row) row latest
  | xelis pool minConfirmations node => node.chainInfo.error = none →
      ∀ topoHeight ∈ node.chainInfo.response,
        XelisPayoutHandler.HeadKeepsUp pool minConfirmations (node.blockByHash row) row topoHeight

/-- The law of a row that goes by the name of its columns. -/
theorem forall_mem_map_classified {blocks : List Block} {p : ClassifiedBlock → Prop} :
    (∀ result ∈ blocks.map Block.classified, p result) ↔ ∀ block ∈ blocks, p block.classified := by
  simp

theorem lawful_ethereum_iff {config : EthereumClassifyConfig} {pool : PoolConfig}
    {rows blocks found : List Block} {node : Ethereum.Node}
    (hfits : EthereumPayoutHandler.FitsUlong node) (hrows : ∀ row ∈ blocks, IsPendingRow row)
    (h : EthereumPayoutHandler.classifyBlocks config pool rows node blocks = .ok found) :
    (∀ block ∈ found,
        block.classified.Lawful EthereumPayoutHandler.minConfirmations (node.latest block.id)) ↔
      ∀ row ∈ blocks, (ethereum config pool rows node).HeadKeepsUp row := by
  rw [EthereumPayoutHandler.classifyBlocks] at h
  split at h
  · rename_i hpeers
    refine forall_mem_iff_of_forall₂ (EthereumPayoutHandler.forall₂_classifyAll h)
      fun row hrow block hblock => ?_
    obtain ⟨⟨hid, _⟩, _⟩ := EthereumPayoutHandler.verdict_classifyBlock hblock
    rw [hid, EthereumPayoutHandler.lawful_classifyBlock_iff hfits (hrows row hrow) hblock,
      HeadKeepsUp]
    simp only [hpeers, true_imp_iff]
  · rename_i hpeers
    obtain rfl := Except.ok.inj h
    exact iff_of_true (fun row hrow => (hrows row hrow).lawful _ _)
      fun row _ henough => absurd henough hpeers

theorem lawful_beam_iff {latest : ℕ} {node : Block → BeamPayoutHandler.Node}
    {blocks found : List Block} (hlatest : latest < 2 ^ 64)
    (hrows : ∀ row ∈ blocks, IsPendingRow row)
    (h : BeamPayoutHandler.classifyBlocks (.ok latest) node blocks = .ok found) :
    (∀ block ∈ found,
        block.classified.Lawful BeamPayoutHandler.payoutMinBlockConfirmations (some latest)) ↔
      ∀ row ∈ blocks, BeamPayoutHandler.HeadKeepsUp (node row) row latest := by
  rw [BeamPayoutHandler.classifyBlocks_eq_collect] at h
  refine forall_mem_collect_iff h (fun row _ hnone => ?_) fun row hrow block hblock =>
    BeamPayoutHandler.lawful_classifyBlock_iff hlatest (hrows row hrow) hblock
  exact BeamPayoutHandler.headKeepsUp_of_none hnone

theorem lawful_xelis_iff {pool : PoolConfig} {minConfirmations : ℤ} {topoHeight : ℕ}
    {node : XelisPayoutHandler.Node} {blocks : List Block} {results : List ClassifiedBlock}
    (htopo : topoHeight < 2 ^ 64) (hrows : ∀ row ∈ blocks, IsPendingRow row)
    (h : collect (fun block => XelisPayoutHandler.classifyBlock pool minConfirmations topoHeight
      (node.blockByHash block) block) blocks = .ok results) :
    (∀ result ∈ results, result.Lawful minConfirmations (some topoHeight)) ↔
      ∀ row ∈ blocks, XelisPayoutHandler.HeadKeepsUp pool minConfirmations
        (node.blockByHash row) row topoHeight :=
  forall_mem_collect_iff h (fun _ _ hnone => XelisPayoutHandler.headKeepsUp_of_none hnone)
    fun row hrow _ hblock =>
      XelisPayoutHandler.lawful_classifyBlock_iff htopo (hrows row hrow) hblock

/-- A call leaves every row lawful exactly where the head keeps up with every row. -/
theorem lawful_iff (call : Classification) {blocks : List Block} {results : List ClassifiedBlock}
    (hfits : call.FitsUlong) (hrows : ∀ row ∈ blocks, IsPendingRow row)
    (h : call.classifyBlocks blocks = .ok results) :
    (∀ result ∈ results, result.Lawful call.required (call.head result.block.id)) ↔
      ∀ row ∈ blocks, call.HeadKeepsUp row := by
  cases call with
  | ethereum config pool rows node =>
      obtain ⟨found, hfound, rfl⟩ := exists_of_map_eq_ok h
      rw [forall_mem_map_classified]
      exact lawful_ethereum_iff hfits hrows hfound
  | beam lastHeight node =>
      obtain ⟨found, hfound, rfl⟩ := exists_of_map_eq_ok h
      cases lastHeight with
      | error e => cases hfound
      | ok latest =>
          rw [forall_mem_map_classified]
          simp only [HeadKeepsUp, head, Except.toOption, Option.mem_some_iff, forall_eq']
          exact lawful_beam_iff (hfits latest rfl) hrows hfound
  | xelis pool minConfirmations node =>
      rw [classifyBlocks, XelisPayoutHandler.classifyBlocks] at h
      split at h
      · rename_i hnil
        obtain rfl := Except.ok.inj h
        simp [hnil]
      · split at h
        · rename_i error herror
          obtain rfl := Except.ok.inj h
          rw [forall_mem_map_classified]
          refine iff_of_true (fun row hrow => (hrows row hrow).lawful _ _) fun row _ hnone => ?_
          rw [herror] at hnone
          cases hnone
        · cases h
        · rename_i topoHeight hnone htopo
          simp only [HeadKeepsUp, head, required, hnone, htopo, true_imp_iff,
            Option.mem_some_iff, forall_eq']
          exact lawful_xelis_iff (hfits topoHeight htopo) hrows h

/-! ### A head below a row -/

/-- The ids of the rows that a call confirms, and the heights it confirms them at. -/
def confirmed (call : Classification) (blocks : List Block) : List (ℕ × ℕ) :=
  (((call.classifyBlocks blocks).toOption.getD []).filter fun result =>
    result.block.status = .confirmed).map fun result => (result.block.id, result.block.blockHeight)

/-- A row that is confirmed too early is not lawful. -/
theorem not_lawful_of_mem_confirmed {call : Classification} {blocks : List Block}
    {id height latest : ℕ} (hmem : (id, height) ∈ call.confirmed blocks)
    (hhead : call.head id = some latest) (hlt : (latest : ℤ) < height + call.required) :
    ∃ results, call.classifyBlocks blocks = .ok results ∧
      ¬∀ result ∈ results, result.Lawful call.required (call.head result.block.id) := by
  rw [confirmed] at hmem
  cases hcall : call.classifyBlocks blocks with
  | error e =>
      rw [hcall] at hmem
      cases hmem
  | ok results =>
      refine ⟨results, rfl, fun hlawful => ?_⟩
      rw [hcall] at hmem
      obtain ⟨result, hresult, heq⟩ := List.mem_map.mp hmem
      obtain ⟨rfl, rfl⟩ := Prod.mk.inj heq
      obtain ⟨hresult, hstatus⟩ := List.mem_filter.mp hresult
      obtain ⟨other, hother, hle⟩ := (hlawful result hresult).mature (of_decide_eq_true hstatus)
      obtain rfl := Option.mem_unique hhead hother
      omega

/-- A pending row of a height that the pool has mined. -/
def minedRow : Block :=
  { EthereumPayoutHandler.pendingRow 1 30 1 with hash := some "30" }

theorem isPendingRow_minedRow : IsPendingRow minedRow :=
  ⟨rfl, by decide, le_rfl, zero_le_one⟩

/-- The heads are the same for the three handlers, and the nodes show the block of the pool. -/
def ethereumAt (latest : ℕ) : Classification :=
  .ethereum EthereumPayoutHandler.mainConfig EthereumPayoutHandler.ethPool [minedRow]
    { EthereumPayoutHandler.ownNode with latest := fun _ => some latest }

def beamAt (latest : ℕ) : Classification :=
  .beam (.ok latest) fun _ => ⟨{ response := some ⟨some "30", some "30"⟩ }, .ok 4000000000⟩

def xelisAt (latest : ℕ) : Classification :=
  .xelis EthereumPayoutHandler.ethPool 60
    ⟨{ response := some latest }, fun _ => { response := some ⟨some "0xaa", 100000000⟩ }⟩

/-- All three handlers confirm a row that is one above the head. -/
theorem confirmed_below :
    (ethereumAt 29).confirmed [minedRow] = [(1, 30)] ∧
      (beamAt 29).confirmed [minedRow] = [(1, 30)] ∧
        (xelisAt 29).confirmed [minedRow] = [(1, 30)] := by
  decide +kernel

theorem not_forall_lawful :
    ¬∀ (call : Classification) (blocks : List Block) (results : List ClassifiedBlock),
      call.FitsUlong → (∀ row ∈ blocks, IsPendingRow row) →
        call.classifyBlocks blocks = .ok results →
          ∀ result ∈ results, result.Lawful call.required (call.head result.block.id) := by
  intro h
  have hmem : (1, 30) ∈ (beamAt 29).confirmed [minedRow] := by
    rw [confirmed_below.2.1]
    exact List.mem_singleton_self _
  obtain ⟨results, hresults, hnot⟩ := not_lawful_of_mem_confirmed hmem rfl (by decide)
  refine hnot (h (beamAt 29) [minedRow] results (fun latest hlatest => ?_) (fun row hrow => ?_)
    hresults)
  · obtain rfl := Option.some.inj hlatest
    norm_num
  · rw [List.mem_singleton.mp hrow]
    exact isPendingRow_minedRow

/-- A head that is far enough ahead confirms the same row. -/
theorem lawful_ahead : ∃ results, (ethereumAt 60).classifyBlocks [minedRow] = .ok results ∧
    (1, 30) ∈ (ethereumAt 60).confirmed [minedRow] ∧
      ∀ result ∈ results, result.Lawful (ethereumAt 60).required
        ((ethereumAt 60).head result.block.id) := by
  have hmem : (1, 30) ∈ (ethereumAt 60).confirmed [minedRow] := by decide +kernel
  cases hcall : (ethereumAt 60).classifyBlocks [minedRow] with
  | error e =>
      rw [confirmed, hcall] at hmem
      cases hmem
  | ok results =>
      refine ⟨results, rfl, hmem, (lawful_iff (ethereumAt 60) ⟨fun _ latest hlatest => ?_,
        fun _ _ _ _ huncle => ?_⟩ (fun row hrow => ?_) hcall).mpr fun row hrow _ latest hlatest =>
          ⟨fun _ _ hwraps => ?_, fun hmissed => ?_⟩⟩
      · obtain rfl := Option.some.inj hlatest
        norm_num
      · cases huncle
      · rw [List.mem_singleton.mp hrow]
        exact isPendingRow_minedRow
      · obtain rfl := Option.some.inj hlatest
        rw [List.mem_singleton.mp hrow] at hwraps
        exact absurd hwraps.1 (by decide)
      · rw [List.mem_singleton.mp hrow] at hmissed
        exact absurd ⟨_, rfl, by decide⟩ hmissed

end Classification

end Miningcore
