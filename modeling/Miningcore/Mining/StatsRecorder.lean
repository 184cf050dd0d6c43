import Mathlib.Data.List.Dedup
import Mathlib.Data.Rat.Defs
import Mathlib.Tactic.Common
import Miningcore.Foundation.HexDigits
import Miningcore.Foundation.LineSplitting

/-!
# Resetting the hashrate of workers that have left

The workers of a pool with a hashrate in the table and without shares in the window
get a record of no hashrate. They are found as the difference of two sets of keys, and
the miner and the worker of a record are the parts of its key.

## Implementation notes

The pass over one pool, of which only the records that reset are written here. A key is
a text, and the worker of a row in the table of statistics is not null. A set is a list
without duplicates, whose order is not that of the records.
-/

namespace Miningcore.Mining

open Foundation

abbrev Name := List Char

def keySeparator : Char := '.'

def buildKey (miner : Name) (worker : Option Name) : Name :=
  if worker.getD [] = [] then miner else miner ++ keySeparator :: worker.getD []

structure MinerWorkerPerformanceStats where
  poolId : Name
  miner : Name
  worker : Option Name
  hashrate : ℚ
  sharesPerSecond : ℚ
deriving DecidableEq

/-- The keys of the miners and of the workers with shares. -/
def currentKeys (current : List (Name × Option Name)) : List Name :=
  current.flatMap fun row => [buildKey row.1 none, buildKey row.1 row.2]

/-- The keys of the rows in the table that are not current. -/
def orphanedKeys (previous : List (Name × Name)) (current : List (Name × Option Name)) :
    List Name :=
  ((previous.map fun row => buildKey row.1 (some row.2)).filter
    fun key => key ∉ currentKeys current).dedup

/-- The statistics that reset a key. -/
def resetStats (poolId key : Name) : MinerWorkerPerformanceStats :=
  let parts := key.splitOn keySeparator
  { poolId
    miner := parts.headD []
    worker := parts[1]?
    hashrate := 0
    sharesPerSecond := 0 }

/-- A row is inserted with an empty worker for none. -/
def insertStats (stats : MinerWorkerPerformanceStats) : MinerWorkerPerformanceStats :=
  { stats with worker := some (stats.worker.getD []) }

def resetOrphaned (poolId : Name) (previous : List (Name × Name))
    (current : List (Name × Option Name)) : List MinerWorkerPerformanceStats :=
  (orphanedKeys previous current).map fun key => insertStats (resetStats poolId key)

section keys

variable {miner worker : Name}

theorem buildKey_nil (miner : Name) : buildKey miner (some []) = miner := if_pos rfl

theorem buildKey_of_ne_nil (h : worker ≠ []) :
    buildKey miner (some worker) = miner ++ keySeparator :: worker := if_neg h

/-- The parts of the key of names without a separator. -/
theorem insertStats_resetStats_buildKey (poolId : Name) (hminer : keySeparator ∉ miner)
    (hworker : keySeparator ∉ worker) :
    insertStats (resetStats poolId (buildKey miner (some worker))) =
      ⟨poolId, miner, some worker, 0, 0⟩ := by
  rw [insertStats, resetStats]
  by_cases hempty : worker = []
  · subst hempty
    rw [buildKey_nil, List.splitOn_eq_singleton hminer]
    rfl
  · rw [buildKey_of_ne_nil hempty, List.splitOn_append_cons_self_of_not_mem hminer,
      List.splitOn_eq_singleton hworker]
    rfl

/-- The names of a record that resets have no separator. -/
theorem keySeparator_notMem_resetStats (poolId key : Name) :
    keySeparator ∉ (insertStats (resetStats poolId key)).miner ∧
      ∀ worker ∈ (insertStats (resetStats poolId key)).worker, keySeparator ∉ worker := by
  have hparts (part : Name) (h : part ∈ key.splitOn keySeparator) : keySeparator ∉ part :=
    notMem_of_mem_splitOn keySeparator key h
  rw [insertStats, resetStats]
  dsimp only
  constructor
  · obtain ⟨part, parts, hkey⟩ := List.exists_cons_of_ne_nil (List.splitOn_ne_nil keySeparator key)
    rw [hkey, List.headD_cons]
    exact hparts part (hkey ▸ List.mem_cons_self)
  · rintro worker ⟨⟩
    cases hpart : (key.splitOn keySeparator)[1]? with
    | none => exact List.not_mem_nil
    | some part => exact hparts part (List.mem_of_getElem? hpart)

/-- A key of names without a separator has no other parts. -/
theorem append_keySeparator_inj {miner' worker' : Name} (hminer : keySeparator ∉ miner)
    (hworker : keySeparator ∉ worker)
    (h : miner ++ keySeparator :: worker = miner' ++ keySeparator :: worker') :
    miner = miner' ∧ worker = worker' := by
  rw [List.append_eq_append_iff] at h
  obtain ⟨_ | ⟨c, cs⟩, hminers, hworkers⟩ | ⟨_ | ⟨c, cs⟩, hminers, hworkers⟩ := h
  · exact ⟨by simpa using hminers.symm, (List.cons.inj hworkers).2⟩
  · rw [(List.cons.inj hworkers).2] at hworker
    exact absurd (List.mem_append_right cs List.mem_cons_self) hworker
  · exact ⟨by simpa using hminers, (List.cons.inj hworkers).2.symm⟩
  · rw [hminers, (List.cons.inj hworkers).1] at hminer
    exact absurd (List.mem_append_right miner' List.mem_cons_self) hminer

end keys

section orphans

variable {previous : List (Name × Name)} {current : List (Name × Option Name)} {pair : Name × Name}

/-- The pairs with shares. -/
def presentPairs (current : List (Name × Option Name)) : List (Name × Name) :=
  current.map fun row => (row.1, row.2.getD [])

variable (current) in
/-- Names without a separator whose key is no current one. Without a worker that is the miner,
with one it may only be a miner with a separator. -/
def Resettable (pair : Name × Name) : Prop :=
  keySeparator ∉ pair.1 ∧ keySeparator ∉ pair.2 ∧
    ∀ row ∈ current, row.1 ≠ if pair.2 = [] then pair.1 else pair.1 ++ keySeparator :: pair.2

theorem mem_currentKeys {key : Name} :
    key ∈ currentKeys current ↔ ∃ row ∈ current, key = row.1 ∨ key = buildKey row.1 row.2 := by
  simp [currentKeys, buildKey]

theorem buildKey_mem_currentKeys (h : pair ∈ presentPairs current) :
    buildKey pair.1 (some pair.2) ∈ currentKeys current := by
  obtain ⟨row, hrow, rfl⟩ := List.mem_map.mp h
  exact mem_currentKeys.mpr ⟨row, hrow, .inr rfl⟩

theorem mem_orphanedKeys {key : Name} :
    key ∈ orphanedKeys previous current ↔
      (∃ pair ∈ previous, buildKey pair.1 (some pair.2) = key) ∧ key ∉ currentKeys current := by
  rw [orphanedKeys, List.mem_dedup, List.mem_filter, List.mem_map, decide_eq_true_eq]

/-- For names without a separator, the key is a current one just if there is a miner of that
name. -/
theorem buildKey_notMem_currentKeys_iff (hminer : keySeparator ∉ pair.1)
    (hworker : keySeparator ∉ pair.2) (habsent : pair ∉ presentPairs current) :
    buildKey pair.1 (some pair.2) ∉ currentKeys current ↔ Resettable current pair := by
  have hkey : buildKey pair.1 (some pair.2) =
      if pair.2 = [] then pair.1 else pair.1 ++ keySeparator :: pair.2 := rfl
  rw [Resettable, mem_currentKeys, ← hkey, not_exists]
  constructor
  · intro h
    exact ⟨hminer, hworker, fun row hrow heq => h row ⟨hrow, .inl heq.symm⟩⟩
  · rintro ⟨-, -, h⟩ row ⟨hrow, heq | heq⟩
    · exact h row hrow heq.symm
    · rw [buildKey, buildKey, Option.getD_some] at heq
      by_cases hnone : row.2.getD [] = []
      · rw [if_pos hnone] at heq
        exact h row hrow heq.symm
      · rw [if_neg hnone] at heq
        by_cases hempty : pair.2 = []
        · rw [if_pos hempty] at heq
          exact hminer (heq ▸ List.mem_append_right _ List.mem_cons_self)
        · rw [if_neg hempty] at heq
          obtain ⟨hminers, hworkers⟩ := append_keySeparator_inj hminer hworker heq
          exact habsent (List.mem_map.mpr ⟨row, hrow, Prod.ext hminers.symm hworkers.symm⟩)

/-- A record without a hashrate. -/
def resetRecord (poolId : Name) (pair : Name × Name) : MinerWorkerPerformanceStats :=
  ⟨poolId, pair.1, some pair.2, 0, 0⟩

theorem resetRecord_injective (poolId : Name) : Function.Injective (resetRecord poolId) := by
  intro pair pair' h
  obtain ⟨-, hminers, hworkers, -, -⟩ := MinerWorkerPerformanceStats.mk.inj h
  exact Prod.ext hminers (Option.some.inj hworkers)

/-- Every record that is written resets the pair of its names. -/
theorem exists_resetRecord_eq (poolId key : Name) :
    ∃ pair, keySeparator ∉ pair.1 ∧ keySeparator ∉ pair.2 ∧
      insertStats (resetStats poolId key) = resetRecord poolId pair := by
  obtain ⟨hminer, hworker⟩ := keySeparator_notMem_resetStats poolId key
  exact ⟨(_, (resetStats poolId key).worker.getD []), hminer, hworker _ rfl, rfl⟩

end orphans

/-- The records that reset are, each once, those of the pairs that were there before and are absent
now, just if no name of such a pair has a separator, a miner without a worker is absent with all
its workers, and no other miner is named as a key. -/
theorem resetOrphaned_iff (poolId : Name) (previous : List (Name × Name))
    (current : List (Name × Option Name)) :
    ((resetOrphaned poolId previous current).Nodup ∧
      ∀ record, record ∈ resetOrphaned poolId previous current ↔
        ∃ pair ∈ previous, pair ∉ presentPairs current ∧ record = resetRecord poolId pair) ↔
    ∀ pair ∈ previous, pair ∉ presentPairs current → Resettable current pair := by
  constructor
  · rintro ⟨-, h⟩ pair hpair habsent
    obtain ⟨key, hkey, hrecord⟩ := List.mem_map.mp ((h _).mpr ⟨pair, hpair, habsent, rfl⟩)
    have hnames {key : Name} {pair : Name × Name}
        (hrecord : insertStats (resetStats poolId key) = resetRecord poolId pair) :
        keySeparator ∉ pair.1 ∧ keySeparator ∉ pair.2 := by
      obtain ⟨named, hminer, hworker, hnamed⟩ := exists_resetRecord_eq poolId key
      rw [← resetRecord_injective poolId (hnamed.symm.trans hrecord)]
      exact ⟨hminer, hworker⟩
    obtain ⟨⟨other, hother, hbuild⟩, hnot⟩ := mem_orphanedKeys.mp hkey
    obtain ⟨hminer, hworker⟩ := hnames hrecord
    have hotherAbsent : other ∉ presentPairs current := fun hpresent =>
      hnot (hbuild ▸ buildKey_mem_currentKeys hpresent)
    -- the pair whose key it is has its own record too, so its names have no separator
    obtain ⟨otherKey, -, hotherRecord⟩ :=
      List.mem_map.mp ((h _).mpr ⟨other, hother, hotherAbsent, rfl⟩)
    obtain ⟨hminer', hworker'⟩ := hnames hotherRecord
    have hsame : other = pair := by
      apply resetRecord_injective poolId
      rw [← hrecord, ← hbuild]
      exact (insertStats_resetStats_buildKey poolId hminer' hworker').symm
    rw [← hbuild, hsame] at hnot
    exact (buildKey_notMem_currentKeys_iff hminer hworker habsent).mp hnot
  · intro h
    have hreset {key : Name} (hkey : key ∈ orphanedKeys previous current) :
        ∃ pair ∈ previous, pair ∉ presentPairs current ∧ buildKey pair.1 (some pair.2) = key ∧
          insertStats (resetStats poolId key) = resetRecord poolId pair := by
      obtain ⟨⟨pair, hpair, rfl⟩, hnot⟩ := mem_orphanedKeys.mp hkey
      have habsent : pair ∉ presentPairs current := fun hpresent =>
        hnot (buildKey_mem_currentKeys hpresent)
      obtain ⟨hminer, hworker, -⟩ := h pair hpair habsent
      exact ⟨pair, hpair, habsent, rfl, insertStats_resetStats_buildKey poolId hminer hworker⟩
    constructor
    · apply List.Nodup.map_on _ (List.nodup_dedup _)
      intro key hkey key' hkey' heq
      obtain ⟨pair, -, -, rfl, hrecord⟩ := hreset hkey
      obtain ⟨pair', -, -, rfl, hrecord'⟩ := hreset hkey'
      rw [resetRecord_injective poolId ((hrecord.symm.trans heq).trans hrecord')]
    · intro record
      constructor
      · intro hmem
        obtain ⟨key, hkey, rfl⟩ := List.mem_map.mp hmem
        obtain ⟨pair, hpair, habsent, -, hrecord⟩ := hreset hkey
        exact ⟨pair, hpair, habsent, hrecord⟩
      · rintro ⟨pair, hpair, habsent, rfl⟩
        obtain ⟨hminer, hworker, hnew⟩ := h pair hpair habsent
        apply List.mem_map.mpr
        refine ⟨buildKey pair.1 (some pair.2), mem_orphanedKeys.mpr ⟨⟨pair, hpair, rfl⟩, ?_⟩,
          insertStats_resetStats_buildKey poolId hminer hworker⟩
        exact (buildKey_notMem_currentKeys_iff hminer hworker habsent).mpr ⟨hminer, hworker, hnew⟩

/-- The worker `rig.1` is reset as `rig`, and a miner without a worker is not reset when it comes
back with one. -/
theorem not_resetOrphaned :
    resetOrphaned "xel".toList [("m".toList, "rig.1".toList)] [] =
        [resetRecord "xel".toList ("m".toList, "rig".toList)] ∧
      resetOrphaned "xel".toList [("m".toList, [])] [("m".toList, some "rig".toList)] = [] := by
  decide

end Miningcore.Mining
