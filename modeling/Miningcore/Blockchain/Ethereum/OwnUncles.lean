import Miningcore.Blockchain.Ethereum.ConfirmedRows

/-!
# The uncles that are found for a row

A row at a height whose block somebody else has mined is searched for near that height. The
search takes the first uncle of the pool that each block shows, and passes over every height
that has an uncle already.
-/

namespace Miningcore

open Foundation BlockRepository

namespace EthereumPayoutHandler

open Ethereum

section searches

variable (config : EthereumClassifyConfig) (pool : PoolConfig) (rows : List Block) (node : Node)
  (latest : ℕ) (row : Block)

/-- The uncle that ends a search at a block. -/
def endsAt (height : ℕ) (info : ChainBlock) : Option (ℕ × Uncle) :=
  ((ownUncle pool node row height info).filter fun uncle =>
    behind latest uncle.height < minConfirmations ∨
      getBlockByPoolHeightAndType rows pool.id uncle.height "uncle" = none).map (height, ·)

/-- The uncle that a search of the span of a row ends with, and the height of its block. -/
def searched : Option (ℕ × Uncle) :=
  (searchRange config latest row.blockHeight).findSome? fun height =>
    (node.blockAt height).bind (endsAt pool rows node latest row height)

/-- An uncle that has matured. -/
def isMatured (found : ℕ × Uncle) : Bool := minConfirmations ≤ behind latest found.2.height

/-- The uncle that a row becomes. -/
def matched : Option (ℕ × Uncle) := (searched config pool rows node latest row).filter
  (isMatured latest)

/-- An uncle of a height is worth something in a block. -/
def isPaid (uheight height : ℕ) : Bool :=
  match getUncleReward config.chainType uheight height
    (totalDuplicateBlockBefore pool rows row uheight) config.maxUncles with
  | .ok reward => 0 < reward
  | .error _ => false

end searches

section classification

variable {config : EthereumClassifyConfig} {pool : PoolConfig} {rows : List Block} {node : Node}
  {latest : ℕ} {row block : Block}

theorem status_asUncle (row : Block) (reward : ℚ) :
    (asUncle row reward).status = if 0 < reward then .confirmed else .orphaned := by
  rw [asUncle]
  split
  · rfl
  · rfl

/-- A search writes the uncle it ends with if that has matured, and changes nothing else but the
expected reward. -/
theorem exists_of_searchUncle {infos : List (ℕ × ChainBlock)}
    (h : searchUncle config pool rows node latest infos row = .ok block) :
    ∃ expected,
      match (infos.findSome? fun entry =>
        endsAt pool rows node latest row entry.1 entry.2).filter (isMatured latest) with
      | some (height, uncle) =>
          ∃ reward, getUncleReward config.chainType uncle.height height
              (totalDuplicateBlockBefore pool rows row uncle.height) config.maxUncles =
                .ok reward ∧
            block = asUncle { row with
              reward := expected, hash := some uncle.hash, blockHeight := uncle.height } reward
      | none => block = { row with reward := expected } := by
  induction infos generalizing row with
  | nil =>
      obtain rfl := Except.ok.inj h
      exact ⟨row.reward, rfl⟩
  | cons first infos ih =>
      obtain ⟨height, info⟩ := first
      rw [searchUncle] at h
      rw [List.findSome?_cons, endsAt]
      split at h
      · rename_i hnone
        rw [hnone]
        exact ih h
      · rename_i uncle huncle
        rw [huncle]
        dsimp only at h
        split at h
        · contradiction
        · rename_i expected hexpected
          split at h
          · rename_i hmatured
            split at h
            · -- the height of the uncle has one already
              rename_i hstored
              have hpassed : ¬ (behind latest uncle.height < minConfirmations ∨
                  getBlockByPoolHeightAndType rows pool.id uncle.height "uncle" = none) := by
                rw [hstored, not_or]
                exact ⟨not_lt.mpr hmatured, Option.some_ne_none _⟩
              rw [Option.filter_some, if_neg (by simpa using hpassed)]
              have hrest := ih h
              exact hrest
            · rename_i hfree
              split at h
              · contradiction
              · rename_i reward hreward
                obtain rfl := Except.ok.inj h
                rw [Option.filter_some, if_pos (by simp [hfree]), Option.map_some,
                  Option.filter_some, if_pos (by simpa [isMatured])]
                exact ⟨expected, reward, hreward, rfl⟩
          · rename_i hyoung
            obtain rfl := Except.ok.inj h
            rw [Option.filter_some, if_pos (by simpa using Or.inl (not_le.mp hyoung)),
              Option.map_some, Option.filter_some, if_neg (by simpa [isMatured] using hyoung)]
            exact ⟨expected, rfl⟩

theorem findSome?_fetchBlocks {β : Type} {heights : List ℕ} {infos : List (ℕ × ChainBlock)}
    (h : fetchBlocks node heights = .ok infos) (f : ℕ → ChainBlock → Option β) :
    infos.findSome? (fun entry => f entry.1 entry.2) =
      heights.findSome? fun height => (node.blockAt height).bind (f height) := by
  induction heights generalizing infos with
  | nil =>
      obtain rfl := Except.ok.inj h
      rfl
  | cons first heights ih =>
      rw [fetchBlocks] at h
      split at h
      · rename_i info others hinfo hothers
        obtain rfl := Except.ok.inj h
        rw [List.findSome?_cons, List.findSome?_cons, hinfo, ih hothers]
        rfl
      · contradiction
      · contradiction

theorem progress_gt_iff {latest height : ℕ} :
    3 / 4 < min (1 : ℚ) ((behind latest height : ℚ) / minConfirmations) ↔
      12 < behind latest height := by
  rw [lt_min_iff, lt_div_iff₀ (by norm_num [minConfirmations])]
  have hbound : (3 / 4 : ℚ) * minConfirmations = (12 : ℕ) := by norm_num [minConfirmations]
  rw [hbound, Nat.cast_lt, and_iff_right (by norm_num)]

/-- What a search leaves of a row, and at which height. -/
theorem exists_of_classifyMissed
    (h : classifyMissed config pool rows node latest (withProgress latest row) = .ok block) :
    ∃ expected,
      match matched config pool rows node latest row with
      | some (height, uncle) =>
          ∃ reward, getUncleReward config.chainType uncle.height height
              (totalDuplicateBlockBefore pool rows row uncle.height) config.maxUncles =
                .ok reward ∧
            block = asUncle { withProgress latest row with
              reward := expected, hash := some uncle.hash, blockHeight := uncle.height } reward
      | none => block = giveUp { withProgress latest row with reward := expected } := by
  obtain ⟨infos, found, hinfos, hfound, rfl⟩ := of_classifyMissed_eq_ok h
  obtain ⟨expected, hends⟩ := exists_of_searchUncle hfound
  rw [findSome?_fetchBlocks hinfos] at hends
  refine ⟨expected, ?_⟩
  change match matched config pool rows node latest row with
    | some (height, uncle) =>
        ∃ reward, getUncleReward config.chainType uncle.height height
            (totalDuplicateBlockBefore pool rows row uncle.height) config.maxUncles =
              .ok reward ∧
          found = asUncle { withProgress latest row with
            reward := expected, hash := some uncle.hash, blockHeight := uncle.height } reward
    | none => found = { withProgress latest row with reward := expected } at hends
  split at hends
  · obtain ⟨reward, hreward, rfl⟩ := hends
    refine ⟨reward, hreward, ?_⟩
    rw [giveUp, if_neg fun hlost => (asUncle_cases _ reward).2.1 hlost.1]
  · rw [hends]

/-- What a pending row becomes at a height whose block somebody else has mined. -/
theorem status_classifyMissed (hpending : row.status = .pending)
    (h : classifyMissed config pool rows node latest (withProgress latest row) = .ok block) :
    match matched config pool rows node latest row with
    | some (height, uncle) => block.hash = some uncle.hash ∧
        block.status =
          if isPaid config pool rows row uncle.height height then .confirmed else .orphaned
    | none =>
        block.status = if 12 < behind latest row.blockHeight then .orphaned else .pending := by
  obtain ⟨expected, hends⟩ := exists_of_classifyMissed h
  split at hends
  · obtain ⟨reward, hreward, rfl⟩ := hends
    refine ⟨(asUncle_cases _ reward).2.2.2.1, ?_⟩
    rw [status_asUncle, isPaid, hreward]
    simp
  · rw [hends, giveUp]
    simp only [withProgress, progress_gt_iff, hpending, true_and]
    split
    · rfl
    · rfl

/-- What a pending row becomes at a height whose block the pool has mined. -/
theorem status_classifyMined {info : ChainBlock} (hpending : row.status = .pending)
    (h : classifyMined config pool rows node row info = .ok block) :
    if isDuplicated pool rows row then
      block.hash = row.hash ∧
        block.status =
          if isPaid config pool rows row row.blockHeight row.blockHeight then .confirmed
          else .orphaned
    else
      ∃ current, node.current row.id row.blockHeight = some current ∧
        if sameAddress current.miner pool.address then
          block.status = .confirmed ∧ block.hash = some current.hash
        else block.status = .pending := by
  rw [classifyMined] at h
  split at h
  · rename_i hduplicated
    rw [if_pos hduplicated]
    split at h
    · contradiction
    · rename_i reward hreward
      obtain rfl := Except.ok.inj h
      dsimp only
      refine ⟨(asUncle_cases row reward).2.2.2.1, ?_⟩
      rw [status_asUncle, isPaid, hreward]
      simp
  · rename_i hduplicated
    rw [if_neg hduplicated]
    split at h
    · contradiction
    · rename_i current hcurrent
      refine ⟨current, hcurrent, ?_⟩
      split at h
      · rename_i hminer
        rw [if_pos hminer]
        split at h
        · contradiction
        · obtain rfl := Except.ok.inj h
          exact ⟨rfl, rfl⟩
      · rename_i hminer
        rw [if_neg hminer]
        obtain rfl := Except.ok.inj h
        exact hpending

end classification

section claims

variable (config : EthereumClassifyConfig) (pool : PoolConfig) (rows : List Block) (node : Node)
  (row : Block)

/-- A block not further from a row than the span references an uncle of the pool at the height of
the row, which no other row has become. -/
structure IsOwnUncle (uncle : Uncle) : Prop where
  height_eq : uncle.height = row.blockHeight
  miner : sameAddress uncle.miner pool.address = true
  referenced : ∃ height, row.blockHeight ≤ height + config.blockSearchOffset ∧
    height ≤ row.blockHeight + config.blockSearchOffset ∧
      ∃ info, node.blockAt height = some info ∧
        ∃ index < info.uncles.length, node.uncleAt row.id height index = some uncle
  unmatched : ∀ other ∈ rows, other.id ≠ row.id → other.poolId = pool.id →
    other.type = some "uncle" → other.hash ≠ some uncle.hash

/-- A row does not become orphaned while there is an uncle for it. -/
def KeepsRow (block : Block) : Prop :=
  (∃ uncle, IsOwnUncle config pool rows node row uncle) → block.status ≠ .orphaned

/-- A row becomes its uncle, once that has matured. -/
def BecomesUncle (block : Block) : Prop :=
  ∀ uncle, IsOwnUncle config pool rows node row uncle →
    (Matured node row.id row.blockHeight →
      block.status = .confirmed ∧ block.hash = some uncle.hash) ∧
    (¬ Matured node row.id row.blockHeight → block.status = .pending)

/-- Where a row with an uncle is not orphaned. -/
def KeepsRowWhen : Prop :=
  ∀ latest ∈ node.latest row.id, (∃ uncle, IsOwnUncle config pool rows node row uncle) →
    (Mined pool node row → minConfirmations ≤ behind latest row.blockHeight →
      isDuplicated pool rows row = true →
        isPaid config pool rows row row.blockHeight row.blockHeight = true) ∧
    (¬ Mined pool node row →
      match matched config pool rows node latest row with
      | some (height, uncle) => isPaid config pool rows row uncle.height height = true
      | none => behind latest row.blockHeight ≤ 12)

/-- Where a row becomes its uncle. -/
def BecomesUncleWhen : Prop :=
  ∀ latest ∈ node.latest row.id, ∀ uncle, IsOwnUncle config pool rows node row uncle →
    (Mined pool node row → minConfirmations ≤ behind latest row.blockHeight →
      if isDuplicated pool rows row then
        row.hash = some uncle.hash ∧
          isPaid config pool rows row row.blockHeight row.blockHeight = true
      else ∃ current, node.current row.id row.blockHeight = some current ∧
        sameAddress current.miner pool.address = true ∧ current.hash = uncle.hash) ∧
    (¬ Mined pool node row →
      match matched config pool rows node latest row with
      | some (height, found) => minConfirmations ≤ behind latest row.blockHeight ∧
          found.hash = uncle.hash ∧ isPaid config pool rows row found.height height = true
      | none => behind latest row.blockHeight ≤ 12)

end claims

section verdicts

variable {config : EthereumClassifyConfig} {pool : PoolConfig} {rows : List Block} {node : Node}
  {row block : Block}

/-- What a pending row becomes. -/
theorem status_classifyBlock (hpending : row.status = .pending)
    (h : classifyBlock config pool rows node row = .ok block) :
    ∃ latest, node.latest row.id = some latest ∧
      (Mined pool node row ∧ behind latest row.blockHeight < minConfirmations ∧
          block.status = .pending ∨
        Mined pool node row ∧ minConfirmations ≤ behind latest row.blockHeight ∧
          (if isDuplicated pool rows row then
            block.hash = row.hash ∧
              block.status =
                if isPaid config pool rows row row.blockHeight row.blockHeight then .confirmed
                else .orphaned
          else
            ∃ current, node.current row.id row.blockHeight = some current ∧
              if sameAddress current.miner pool.address then
                block.status = .confirmed ∧ block.hash = some current.hash
              else block.status = .pending) ∨
        ¬ Mined pool node row ∧
          match matched config pool rows node latest row with
          | some (height, uncle) => block.hash = some uncle.hash ∧
              block.status =
                if isPaid config pool rows row uncle.height height then .confirmed else .orphaned
          | none =>
              block.status =
                if 12 < behind latest row.blockHeight then .orphaned else .pending) := by
  obtain ⟨latest, hlatest, ⟨hmined, hmatured, info, hblock⟩ | ⟨hmined, hyoung, rfl⟩ |
    ⟨hmissed, hblock⟩⟩ := classifyBlock_cases h
  · have hpending' : (withProgress latest row).status = .pending := hpending
    have hstatus := status_classifyMined hpending' hblock
    exact ⟨latest, hlatest, Or.inr (Or.inl ⟨hmined, hmatured, hstatus⟩)⟩
  · exact ⟨latest, hlatest, Or.inl ⟨hmined, hyoung, hpending⟩⟩
  · have hstatus := status_classifyMissed hpending hblock
    exact ⟨latest, hlatest, Or.inr (Or.inr ⟨hmissed, hstatus⟩)⟩

theorem keepsRow_iff (hpending : row.status = .pending)
    (h : classifyBlock config pool rows node row = .ok block) :
    KeepsRow config pool rows node row block ↔ KeepsRowWhen config pool rows node row := by
  obtain ⟨latest, hlatest, hcases⟩ := status_classifyBlock hpending h
  rw [KeepsRow, KeepsRowWhen]
  simp only [hlatest, Option.mem_def, Option.some.injEq, forall_eq']
  refine imp_congr_right fun _ => ?_
  obtain ⟨hmined, hyoung, hstatus⟩ | ⟨hmined, hmatured, hstatus⟩ | ⟨hmissed, hstatus⟩ := hcases
  · simp [hmined, hstatus, not_le.mpr hyoung]
  · simp only [hmined, hmatured, true_imp_iff, not_true_eq_false, false_imp_iff, and_true]
    split at hstatus
    · rename_i hduplicated
      simp [hstatus.2, hduplicated]
    · rename_i hduplicated
      obtain ⟨current, -, hcurrent⟩ := hstatus
      split at hcurrent
      · simp [hcurrent.1, hduplicated]
      · simp [hcurrent, hduplicated]
  · simp only [hmissed, false_imp_iff, not_false_eq_true, true_imp_iff, true_and]
    split at hstatus
    · simp [hstatus.2]
    · simp [hstatus]

theorem becomesUncle_iff (hpending : row.status = .pending)
    (h : classifyBlock config pool rows node row = .ok block) :
    BecomesUncle config pool rows node row block ↔ BecomesUncleWhen config pool rows node row := by
  obtain ⟨latest, hlatest, hcases⟩ := status_classifyBlock hpending h
  rw [BecomesUncle, BecomesUncleWhen]
  simp only [hlatest, Option.mem_def, Option.some.injEq, forall_eq', Matured, exists_eq_left']
  refine forall₂_congr fun uncle _ => ?_
  obtain ⟨hmined, hyoung, hstatus⟩ | ⟨hmined, hmatured, hstatus⟩ | ⟨hmissed, hstatus⟩ := hcases
  · simp [hmined, hstatus, not_le.mpr hyoung]
  · simp only [hmined, hmatured, true_imp_iff, not_true_eq_false, false_imp_iff, and_true]
    split at hstatus
    · rename_i hduplicated
      rw [if_pos hduplicated, hstatus.1, hstatus.2, and_comm]
      simp
    · rename_i hduplicated
      rw [if_neg hduplicated]
      obtain ⟨current, hcurrent, hverdict⟩ := hstatus
      rw [hcurrent]
      split at hverdict
      · rename_i hminer
        simp [hverdict.1, hverdict.2, hminer]
      · rename_i hminer
        simp [hverdict, hminer]
  · simp only [hmissed, false_imp_iff, not_false_eq_true, true_imp_iff, true_and]
    by_cases hmatured : minConfirmations ≤ behind latest row.blockHeight
    · have hold : 12 < behind latest row.blockHeight := lt_of_lt_of_le (by decide) hmatured
      split at hstatus
      · simp [hmatured, hstatus.1, hstatus.2, and_comm]
      · simp [hmatured, hstatus, hold]
    · split at hstatus
      · simp only [hmatured, false_imp_iff, not_false_eq_true, true_imp_iff, true_and, false_and,
          iff_false, hstatus.2]
        split
        · exact BlockStatus.noConfusion
        · exact BlockStatus.noConfusion
      · simp [hmatured, hstatus]

/-- In a cycle, a row with an uncle is kept where its search leaves it or pays, and becomes that
uncle where its search ends with it. -/
theorem keepsUncles_iff (config : EthereumClassifyConfig) (pool : PoolConfig) (rows : List Block)
    (node : Node) {results : List Block}
    (h : classifyBlocks config pool rows node (getPendingBlocksForPool rows pool.id) = .ok results)
    {row block : Block} (hmem : (row, block) ∈ (getPendingBlocksForPool rows pool.id).zip results) :
    (KeepsRow config pool rows node row block ↔
      (node.enoughPeers = true → KeepsRowWhen config pool rows node row)) ∧
    (node.enoughPeers = true →
      (BecomesUncle config pool rows node row block ↔
        BecomesUncleWhen config pool rows node row)) := by
  have hpending : row.status = .pending :=
    (mem_pending_iff.mp (List.of_mem_zip hmem).1).2.2
  rw [classifyBlocks] at h
  split at h
  · rename_i hpeers
    have hblock := (List.forall₂_iff_zip.mp (forall₂_classifyAll h)).2 hmem
    rw [hpeers]
    simp only [true_imp_iff]
    exact ⟨keepsRow_iff hpending hblock, becomesUncle_iff hpending hblock⟩
  · rename_i hpeers
    obtain rfl := Except.ok.inj h
    have hsame : List.Forall₂ Eq (getPendingBlocksForPool rows pool.id)
        (getPendingBlocksForPool rows pool.id) := List.forall₂_same.mpr fun _ _ => rfl
    obtain rfl : row = block := (List.forall₂_iff_zip.mp hsame).2 hmem
    simp only [hpeers, false_imp_iff, iff_true, and_true, Bool.false_eq_true]
    rw [KeepsRow, hpending]
    exact fun _ => BlockStatus.noConfusion

end verdicts

section lostUncles

/-- Two uncles of the pool at height 20, which the blocks after it reference. -/
def twinNode : Node where
  enoughPeers := true
  latest _ := some 60
  blockAt height := some
    (if height = 21 then chainBlock "21" "0xbb" ["u"]
      else if height = 22 then chainBlock "22" "0xbb" ["v"]
      else chainBlock "other" "0xbb" [])
  current _ _ := none
  uncleAt _ height _ := some ⟨if height = 21 then "u" else "v", 20, "0xaa"⟩
  receipts _ _ := .ok []

/-- A row that has become the first of the two. -/
def uncleRow : Block :=
  { pendingRow 1 20 1 with status := .confirmed, type := some "uncle", hash := some "u" }

def lostRow (row : Block) (confirmationProgress : ℚ) : Block :=
  { row with confirmationProgress, status := .orphaned, hash := some "0x0" }

/-- Lost are an uncle at a height that has another, one that is still immature, and one that the
last block of the span references. -/
theorem not_keepsRow_pending :
    (classifyBlocks mainConfig ethPool [uncleRow, pendingRow 2 20 2] twinNode [pendingRow 2 20 2] =
        .ok [lostRow (pendingRow 2 20 2) 1] ∧
      ¬ KeepsRow mainConfig ethPool [uncleRow, pendingRow 2 20 2] twinNode (pendingRow 2 20 2)
        (lostRow (pendingRow 2 20 2) 1)) ∧
    (classifyBlocks mainConfig ethPool [pendingRow 1 20 1]
        { uncleNode with latest := fun _ => some 34 } [pendingRow 1 20 1] =
        .ok [lostRow (pendingRow 1 20 1) (7 / 8)] ∧
      ¬ KeepsRow mainConfig ethPool [pendingRow 1 20 1]
        { uncleNode with latest := fun _ => some 34 } (pendingRow 1 20 1)
        (lostRow (pendingRow 1 20 1) (7 / 8))) ∧
    (classifyBlocks { mainConfig with blockSearchOffset := 1 } ethPool [pendingRow 1 20 1] uncleNode
        [pendingRow 1 20 1] = .ok [lostRow (pendingRow 1 20 1) 1] ∧
      ¬ KeepsRow { mainConfig with blockSearchOffset := 1 } ethPool [pendingRow 1 20 1] uncleNode
        (pendingRow 1 20 1) (lostRow (pendingRow 1 20 1) 1)) := by
  refine ⟨⟨by decide +kernel, fun hkept => ?_⟩, ⟨by decide +kernel, fun hkept => ?_⟩,
    ⟨by decide +kernel, fun hkept => ?_⟩⟩
  · refine hkept ⟨⟨"v", 20, "0xaa"⟩, rfl, by decide, ⟨22, by decide, by decide, _, rfl, 0,
      by decide, rfl⟩, by decide⟩ rfl
  · refine hkept ⟨⟨"u", 20, "0xaa"⟩, rfl, by decide, ⟨21, by decide, by decide, _, rfl, 0,
      by decide, rfl⟩, by decide⟩ rfl
  · refine hkept ⟨⟨"u", 20, "0xaa"⟩, rfl, by decide, ⟨21, by decide, by decide, _, rfl, 0,
      by decide, rfl⟩, by decide⟩ rfl

/-- The uncle at height 20, with a block of the span far behind the head. -/
def foundRow : Block :=
  { asUncle { pendingRow 1 20 1 with hash := some "u" } (35 / 8) with confirmationProgress := 1 }

theorem keepsUncles_uncleNode :
    KeepsRow mainConfig ethPool [pendingRow 1 20 1] uncleNode (pendingRow 1 20 1) foundRow ∧
      BecomesUncle mainConfig ethPool [pendingRow 1 20 1] uncleNode (pendingRow 1 20 1)
        foundRow := by
  have hclassify : classifyBlocks mainConfig ethPool [pendingRow 1 20 1] uncleNode
      (getPendingBlocksForPool [pendingRow 1 20 1] ethPool.id) = .ok [foundRow] := by
    decide +kernel
  have hmatched : matched mainConfig ethPool [pendingRow 1 20 1] uncleNode 60 (pendingRow 1 20 1) =
      some (21, ⟨"u", 20, "0xaa"⟩) := by
    decide +kernel
  have hpaid : isPaid mainConfig ethPool [pendingRow 1 20 1] (pendingRow 1 20 1) 20 21 = true := by
    decide +kernel
  have hmissed : ¬ Mined ethPool uncleNode (pendingRow 1 20 1) := by
    rintro ⟨info, hinfo, hminer⟩
    cases hinfo
    exact absurd hminer (by decide)
  obtain ⟨hkeeps, hbecomes⟩ := keepsUncles_iff mainConfig ethPool [pendingRow 1 20 1] uncleNode
    hclassify (show (pendingRow 1 20 1, foundRow) ∈ _ by decide +kernel)
  refine ⟨hkeeps.mpr fun _ latest hlatest _ => ⟨fun hmined => absurd hmined hmissed, fun _ => ?_⟩,
    (hbecomes rfl).mpr fun latest hlatest uncle huncle =>
      ⟨fun hmined => absurd hmined hmissed, fun _ => ?_⟩⟩
  · cases hlatest
    rw [hmatched]
    exact hpaid
  · cases hlatest
    rw [hmatched]
    refine ⟨by decide, ?_, hpaid⟩
    obtain ⟨height, -, -, info, -, index, -, hreferenced⟩ := huncle.referenced
    cases hreferenced
    rfl

end lostUncles

end EthereumPayoutHandler

end Miningcore
