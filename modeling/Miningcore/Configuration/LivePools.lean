import Miningcore.Configuration.ConfigHotReloadService
import Miningcore.Foundation.DictionaryUpdates

/-!
# The pools that run after a reload

A reload stops what its table of tasks holds. The pools that the program has started are not in it:
they run on when they are removed or disabled, and twice when they are restarted.

## Implementation notes

For each id it is followed whether a pool runs that the program started, whether one runs that a
reload started, and whether the id is registered.
-/

namespace Miningcore.Configuration

open Foundation

/-- What is known of a pool. -/
structure PoolStatus where
  byStartup : Bool
  byReload : Bool
  registered : Bool

namespace PoolStatus

def stopped (status : PoolStatus) : PoolStatus :=
  { status with byReload := false, registered := false }

def started (status : PoolStatus) : PoolStatus :=
  { status with byReload := true, registered := true }

/-- What a reload makes of it, for a file in which the pool is enabled or not. -/
def reload (status : PoolStatus) (inFile disabled changed : Bool) : PoolStatus :=
  match status.registered, inFile with
  | true, false => status.stopped
  | false, true => status.started
  | false, false => status
  | true, true =>
      if disabled then status.stopped
      else if changed then status.stopped.started
      else status

@[simp] theorem byStartup_reload (status : PoolStatus) (inFile disabled changed : Bool) :
    (status.reload inFile disabled changed).byStartup = status.byStartup := by
  obtain ⟨byStartup, byReload, registered⟩ := status
  cases registered <;> cases inFile <;> cases disabled <;> cases changed <;> rfl

/-- What reloads started is kept as the file says. -/
theorem reload_of_byReload {status : PoolStatus} (h : status.registered = status.byReload)
    {inFile disabled : Bool} (hdisabled : inFile = true → disabled = false) (changed : Bool) :
    (status.reload inFile disabled changed).byReload = inFile ∧
      (status.reload inFile disabled changed).registered = inFile := by
  obtain ⟨byStartup, byReload, registered⟩ := status
  obtain rfl : registered = byReload := h
  cases inFile with
  | false => cases registered <;> exact ⟨rfl, rfl⟩
  | true =>
      obtain rfl : disabled = false := hdisabled rfl
      cases registered <;> cases changed <;> exact ⟨rfl, rfl⟩

/-- What the program started gets a second instance when it is restarted. -/
theorem reload_of_byStartup {status : PoolStatus} (hregistered : status.registered = true)
    (hreload : status.byReload = false) {inFile disabled : Bool}
    (hdisabled : inFile = true → disabled = false) (changed : Bool) :
    (status.reload inFile disabled changed).byReload = (inFile && changed) ∧
      (status.reload inFile disabled changed).registered = inFile := by
  obtain ⟨byStartup, byReload, registered⟩ := status
  obtain rfl : registered = true := hregistered
  obtain rfl : byReload = false := hreload
  cases inFile with
  | false => exact ⟨rfl, rfl⟩
  | true =>
      obtain rfl : disabled = false := hdisabled rfl
      cases changed <;> exact ⟨rfl, rfl⟩

end PoolStatus

namespace ConfigHotReloadService

variable {service : ConfigHotReloadService} {board : String → PoolStatus}

/-- The instances of a pool that run. -/
def instancesOf (service : ConfigHotReloadService) (id : String) : List PoolInstance :=
  service.live.filter fun pool => pool.poolId == id

/-- The service is as a board says, and no two tasks share a source. -/
structure Shows (service : ConfigHotReloadService) (board : String → PoolStatus) : Prop where
  nodup : service.pools.Nodup
  registered : ∀ id, (board id).registered = true ↔ id ∈ service.pools
  byReload : ∀ id, (board id).byReload = (service.poolTasks.lookup id).isSome
  instances : ∀ id, service.instancesOf id =
    (if (board id).byStartup then [⟨id, .application⟩] else []) ++
      ((service.poolTasks.lookup id).map fun number => ⟨id, .source number⟩).toList
  made : ∀ id number, service.poolTasks.lookup id = some number → number < service.sources
  own : ∀ id id' number, service.poolTasks.lookup id = some number →
    service.poolTasks.lookup id' = some number → id = id'

theorem lookup_cons (k : String) (number : ℕ) (tasks : List (String × ℕ)) (j : String) :
    ((k, number) :: tasks).lookup j = if j = k then some number else tasks.lookup j := by
  by_cases hj : j = k
  · simp [hj]
  · simp [List.lookup_cons, hj, beq_false_of_ne hj]

theorem lookup_filter_ne (tasks : List (String × ℕ)) (id j : String) :
    (tasks.filter fun entry => entry.1 != id).lookup j =
      if j = id then none else tasks.lookup j := by
  induction tasks with
  | nil => simp
  | cons entry tasks ih =>
      obtain ⟨k, number⟩ := entry
      by_cases hk : k = id
      · subst hk
        rw [List.filter_cons_of_neg (by simp), ih, lookup_cons]
        split <;> rfl
      · rw [List.filter_cons_of_pos (by simp [hk]), lookup_cons, lookup_cons, ih]
        by_cases hj : j = k
        · rw [if_pos hj, if_pos hj, if_neg (hj ▸ hk)]
        · rw [if_neg hj, if_neg hj]

/-- Taking a pool from the registry changes what is said of its registration. -/
theorem shows_tryRemove (h : Shows service board) (id : String) :
    Shows (service.tryRemove id)
      (Function.update board id { board id with registered := false }) where
  nodup := h.nodup.filter _
  registered := by
    intro j
    by_cases hj : j = id
    · simp [hj, tryRemove]
    · simp [hj, tryRemove, h.registered]
  byReload := by
    intro j
    rw [tryRemove, ← h.byReload]
    by_cases hj : j = id <;> simp [hj]
  instances := by
    intro j
    have hstatus : (Function.update board id { board id with registered := false } j).byStartup =
        (board j).byStartup := by
      by_cases hj : j = id <;> simp [hj]
    rw [hstatus]
    exact h.instances j
  made := h.made
  own := h.own

theorem stopPoolAsync_of_none {id : String} (h : service.poolTasks.lookup id = none) :
    service.stopPoolAsync id = service := by
  rw [stopPoolAsync, h]

theorem stopPoolAsync_of_some {id : String} {number : ℕ}
    (h : service.poolTasks.lookup id = some number) :
    service.stopPoolAsync id =
      { service with
        poolTasks := service.poolTasks.filter fun entry => entry.1 != id
        live := service.live.filter fun pool => pool.token != .source number } := by
  rw [stopPoolAsync, h]

theorem instancesOf_stopPoolAsync_self (h : Shows service board) (id : String) :
    (service.stopPoolAsync id).instancesOf id =
      if (board id).byStartup then [⟨id, .application⟩] else [] := by
  cases hlookup : service.poolTasks.lookup id with
  | none =>
      rw [stopPoolAsync_of_none hlookup, h.instances, hlookup]
      exact List.append_nil _
  | some number =>
      rw [stopPoolAsync_of_some hlookup, instancesOf, List.filter_comm]
      rw [← instancesOf, h.instances, hlookup]
      split <;> simp

/-- No other pool has the source that is cancelled. -/
theorem instancesOf_stopPoolAsync_of_ne (h : Shows service board) {id j : String} (hj : j ≠ id) :
    (service.stopPoolAsync id).instancesOf j = service.instancesOf j := by
  cases hlookup : service.poolTasks.lookup id with
  | none => rw [stopPoolAsync_of_none hlookup]
  | some number =>
      rw [stopPoolAsync_of_some hlookup, instancesOf, List.filter_comm]
      rw [← instancesOf, List.filter_eq_self, h.instances]
      intro pool hpool
      obtain hstartup | htask := List.mem_append.mp hpool
      · split at hstartup
        · rw [List.mem_singleton.mp hstartup]
          rfl
        · cases hstartup
      · obtain ⟨other, hother, rfl⟩ := Option.map_eq_some_iff.mp (Option.mem_toList.mp htask)
        have hne : other ≠ number := by
          rintro rfl
          exact hj (h.own _ _ _ hother hlookup)
        simpa using hne

theorem lookup_stopPoolAsync (service : ConfigHotReloadService) (id j : String) :
    (service.stopPoolAsync id).poolTasks.lookup j =
      if j = id then none else service.poolTasks.lookup j := by
  cases hlookup : service.poolTasks.lookup id with
  | none =>
      rw [stopPoolAsync_of_none hlookup]
      by_cases hj : j = id
      · rw [if_pos hj, hj, hlookup]
      · rw [if_neg hj]
  | some number =>
      rw [stopPoolAsync_of_some hlookup]
      exact lookup_filter_ne _ _ _

theorem pools_stopPoolAsync (service : ConfigHotReloadService) (id : String) :
    (service.stopPoolAsync id).pools = service.pools := by
  unfold stopPoolAsync
  split <;> rfl

theorem sources_stopPoolAsync (service : ConfigHotReloadService) (id : String) :
    (service.stopPoolAsync id).sources = service.sources := by
  unfold stopPoolAsync
  split <;> rfl

/-- Stopping a pool ends what a reload has started, and nothing else. -/
theorem shows_stopPoolAsync (h : Shows service board) (id : String) :
    Shows (service.stopPoolAsync id)
      (Function.update board id { board id with byReload := false }) where
  nodup := by
    rw [pools_stopPoolAsync]
    exact h.nodup
  registered := by
    intro j
    rw [pools_stopPoolAsync, ← h.registered]
    by_cases hj : j = id <;> simp [hj]
  byReload := by
    intro j
    rw [lookup_stopPoolAsync]
    by_cases hj : j = id
    · simp [hj]
    · simp [hj, h.byReload]
  instances := by
    intro j
    rw [lookup_stopPoolAsync]
    by_cases hj : j = id
    · simp [hj, instancesOf_stopPoolAsync_self h]
    · simp [hj, instancesOf_stopPoolAsync_of_ne h hj, h.instances]
  made := by
    intro j number hlookup
    rw [lookup_stopPoolAsync] at hlookup
    rw [sources_stopPoolAsync]
    split at hlookup
    · cases hlookup
    · exact h.made j number hlookup
  own := by
    intro j k number hj hk
    rw [lookup_stopPoolAsync] at hj hk
    split at hj
    · cases hj
    · split at hk
      · cases hk
      · exact h.own j k number hj hk

theorem shows_stopAndRemove (h : Shows service board) (id : String) :
    Shows (service.stopAndRemove id) (Function.update board id (board id).stopped) := by
  have hstopped := shows_tryRemove (shows_stopPoolAsync h id) id
  rw [Function.update_self, Function.update_idem] at hstopped
  exact hstopped

/-- A start adds an instance of the pool when no reload has started one. -/
theorem shows_startPoolAsync {coinTemplates : List String} {poolConfig : PoolConfig}
    (h : Shows service board) (hcoin : poolConfig.coin.any coinTemplates.contains)
    (hnone : (board poolConfig.id).byReload = false) :
    Shows (service.startPoolAsync coinTemplates poolConfig)
      (Function.update board poolConfig.id (board poolConfig.id).started) := by
  rw [startPoolAsync, if_pos hcoin]
  have hlookup : ∀ j, ((poolConfig.id, service.sources) :: service.poolTasks.filter
      fun entry => entry.1 != poolConfig.id).lookup j =
      if j = poolConfig.id then some service.sources else service.poolTasks.lookup j := by
    intro j
    rw [lookup_cons, lookup_filter_ne]
    split <;> rfl
  have hfree : service.poolTasks.lookup poolConfig.id = none := by
    rw [h.byReload] at hnone
    simpa using hnone
  exact {
    nodup := by
      rw [List.nodup_append]
      refine ⟨h.nodup.filter _, List.nodup_singleton _, ?_⟩
      intro j hj k hk
      rw [List.mem_singleton.mp hk]
      simpa using (List.mem_filter.mp hj).2
    registered := by
      intro j
      by_cases hj : j = poolConfig.id
      · simp [hj, PoolStatus.started]
      · simp [hj, h.registered]
    byReload := by
      intro j
      rw [hlookup]
      by_cases hj : j = poolConfig.id
      · simp [hj, PoolStatus.started]
      · simp [hj, h.byReload]
    instances := by
      intro j
      rw [hlookup, instancesOf, List.filter_append]
      by_cases hj : j = poolConfig.id
      · subst hj
        have hold := h.instances poolConfig.id
        rw [instancesOf, hfree] at hold
        simp [hold, PoolStatus.started]
      · have hold := h.instances j
        rw [instancesOf] at hold
        have hne : poolConfig.id ≠ j := Ne.symm hj
        simp [hold, hj, hne]
    made := by
      intro j number hj
      rw [hlookup] at hj
      split at hj
      · cases hj
        exact Nat.lt_succ_self _
      · exact Nat.lt_succ_of_lt (h.made j number hj)
    own := by
      intro j k number hj hk
      rw [hlookup] at hj hk
      split at hj <;> split at hk
      · rename_i hj' hk'
        rw [hj', hk']
      · cases hj
        exact absurd (h.made k _ hk) (Nat.lt_irrefl _)
      · cases hk
        exact absurd (h.made j _ hj) (Nat.lt_irrefl _)
      · exact h.own j k number hj hk }

/-- The section that a reload starts a pool from names a coin of a template. -/
def NamesCoin (coinTemplates : List String) (newPools : List PoolConfig) (id : String) : Prop :=
  ∃ config, sectionOf newPools id = some config ∧ config.coin.any coinTemplates.contains

variable {coinTemplates : List String} {newPools : List PoolConfig}

theorem shows_addPool {id : String} (h : Shows service board)
    (hnone : (board id).byReload = false ∧ NamesCoin coinTemplates newPools id) :
    Shows (addPool coinTemplates newPools service id)
      (Function.update board id (board id).started) := by
  obtain ⟨hnone, config, hsection, hcoin⟩ := hnone
  obtain rfl : config.id = id := id_of_sectionOf hsection
  rw [addPool, hsection]
  exact shows_startPoolAsync h hcoin hnone

theorem shows_foldl_stopAndRemove {ids : List String} (hids : ids.Nodup)
    (h : Shows service board) :
    Shows (ids.foldl stopAndRemove service) (changedAt PoolStatus.stopped ids board) := by
  refine shows_foldl (fun _ _ => True) ?_ hids (fun _ _ => trivial) h
  intro service board id h _
  exact shows_stopAndRemove h id

theorem shows_foldl_addPool {ids : List String} (hids : ids.Nodup) (h : Shows service board)
    (hnone : ∀ id ∈ ids, (board id).byReload = false ∧ NamesCoin coinTemplates newPools id) :
    Shows (ids.foldl (addPool coinTemplates newPools) service)
      (changedAt PoolStatus.started ids board) := by
  refine shows_foldl (fun id status => status.byReload = false ∧
    NamesCoin coinTemplates newPools id) ?_ hids hnone h
  intro service board id h hnone
  exact shows_addPool h hnone

theorem restarts_eq_false_of_disables {oldPools : List PoolConfig} {id : String}
    (h : disables oldPools newPools id) : restarts oldPools newPools id = false := by
  unfold disables at h
  unfold restarts
  split at h
  · simp only [Bool.not_eq_true'] at h
    simp [h]
  · cases h

/-- The pools that are started, each once: the new ones and those that are restarted. -/
theorem nodup_toAdd (h : Shows service board) (newPools : List PoolConfig) :
    (service.toAdd newPools ++ service.restarted newPools).Nodup := by
  rw [List.nodup_append]
  refine ⟨(List.nodup_dedup _).filter _, (h.nodup.filter _).filter _, ?_⟩
  rintro id hadd _ hold rfl
  exact (mem_toAdd.mp hadd).2 (mem_restarted.mp hold).1.1

/-- The board when the pools of a file are removed, disabled and stopped for a restart. -/
def stoppedBoard (service : ConfigHotReloadService) (newPools : List PoolConfig)
    (board : String → PoolStatus) : String → PoolStatus :=
  changedAt PoolStatus.stopped (service.restarted newPools)
    (changedAt PoolStatus.stopped (service.disabled newPools)
      (changedAt PoolStatus.stopped (service.toRemove newPools) board))

/-- No pool that is started still has an instance of a reload. -/
theorem byReload_stoppedBoard (h : Shows service board)
    (hregistered : ∀ id, (board id).byReload → (board id).registered) {id : String}
    (hid : id ∈ service.toAdd newPools ++ service.restarted newPools) :
    (stoppedBoard service newPools board id).byReload = false := by
  obtain hadd | hrestart := List.mem_append.mp hid
  · have hout : id ∉ service.pools := (mem_toAdd.mp hadd).2
    have hsame : stoppedBoard service newPools board id = board id := by
      rw [stoppedBoard, changedAt_of_notMem, changedAt_of_notMem, changedAt_of_notMem]
      · exact fun hremove => hout (mem_toRemove.mp hremove).1
      · exact fun hdisabled => hout (mem_disabled.mp hdisabled).1.1
      · exact fun hrestarted => hout (mem_restarted.mp hrestarted).1.1
    rw [hsame, Bool.eq_false_iff]
    exact fun hlive => hout ((h.registered id).mp (hregistered id hlive))
  · rw [stoppedBoard, changedAt_of_mem hrestart]
    rfl

/-- Every pool is treated as the reload treats one. -/
theorem started_stoppedBoard (h : Shows service board) (id : String) :
    changedAt PoolStatus.started (service.toAdd newPools ++ service.restarted newPools)
        (stoppedBoard service newPools board) id =
      (board id).reload ((enabledIds newPools).contains id)
        (disables service.clusterPools newPools id)
        (restarts service.clusterPools newPools id) := by
  have hpools : (board id).registered = decide (id ∈ service.pools) := by
    rw [Bool.eq_iff_iff, h.registered, decide_eq_true_iff]
  have hexclusive : disables service.clusterPools newPools id →
      restarts service.clusterPools newPools id = false := restarts_eq_false_of_disables
  by_cases hold : id ∈ service.pools <;> by_cases hnew : id ∈ enabledIds newPools <;>
    simp only [changedAt, stoppedBoard, PoolStatus.reload, mem_toRemove, mem_toAdd, mem_disabled,
      mem_restarted, List.mem_append, List.contains_eq_mem, hold, hnew, hpools, decide_true,
      decide_false, true_and, false_and, and_true, and_false, not_true, not_false_eq_true, or_false,
      false_or, if_true, if_false]
  -- the pool runs and is enabled in the file
  split
  · rename_i hrestart
    have henabled : ¬disables service.clusterPools newPools id :=
      fun hdisabled => absurd hrestart (by simp [hexclusive hdisabled])
    simp [henabled]
  · rfl

/-- A reload does to every pool what it does to one. -/
theorem shows_reloadPools (h : Shows service board)
    (hregistered : ∀ id, (board id).byReload → (board id).registered)
    (hcoins : ∀ id ∈ enabledIds newPools, NamesCoin coinTemplates newPools id) :
    Shows (reloadPools coinTemplates newPools service) fun id =>
      (board id).reload ((enabledIds newPools).contains id)
        (disables service.clusterPools newPools id)
        (restarts service.clusterPools newPools id) := by
  by_cases hempty : service.pools = [] ∧ enabledIds newPools = []
  · have hsame : (fun id => (board id).reload ((enabledIds newPools).contains id)
        (disables service.clusterPools newPools id)
        (restarts service.clusterPools newPools id)) = board := by
      ext1 id
      have hout : (board id).registered = false := by
        rw [Bool.eq_false_iff, Ne, h.registered, hempty.1]
        exact List.not_mem_nil
      simp only [hempty.2, PoolStatus.reload, hout]
      rfl
    rw [hsame, reloadPools_of_empty hempty.1 hempty.2]
    exact h
  · have hremoved : Shows _ (changedAt PoolStatus.stopped (service.toRemove newPools) board) :=
      shows_foldl_stopAndRemove (h.nodup.filter _) h
    have hdisabled : Shows _ (changedAt PoolStatus.stopped (service.disabled newPools) _) :=
      shows_foldl_stopAndRemove ((h.nodup.filter _).filter _) hremoved
    have hstopped : Shows _ (stoppedBoard service newPools board) :=
      shows_foldl_stopAndRemove ((h.nodup.filter _).filter _) hdisabled
    have hpre : ∀ id ∈ service.toAdd newPools ++ service.restarted newPools,
        (stoppedBoard service newPools board id).byReload = false ∧
          NamesCoin coinTemplates newPools id := by
      intro id hid
      refine ⟨byReload_stoppedBoard h hregistered hid, hcoins id ?_⟩
      obtain hadd | hrestart := List.mem_append.mp hid
      · exact (mem_toAdd.mp hadd).1
      · exact (mem_restarted.mp hrestart).1.2
    have hstarted := shows_foldl_addPool (nodup_toAdd h newPools) hstopped hpre
    rw [reloadPools_eq hempty, ← funext (started_stoppedBoard h)]
    exact ⟨hstarted.nodup, hstarted.registered, hstarted.byReload, hstarted.instances,
      hstarted.made, hstarted.own⟩

/-! ### Runs -/

/-- Just the pools that are enabled run, each once. -/
def KeepsConfigured (pools : List PoolConfig) (service : ConfigHotReloadService) : Prop :=
  (∀ id, (service.instancesOf id).length ≤ 1) ∧
    ∀ id, (∃ pool ∈ service.live, pool.poolId = id) ↔
      ∃ config ∈ pools, config.enabled ∧ config.id = id

theorem instancesOf_ne_nil {id : String} :
    service.instancesOf id ≠ [] ↔ ∃ pool ∈ service.live, pool.poolId = id := by
  simp [instancesOf, List.filter_eq_nil_iff]

theorem keepsConfigured_iff_board (h : Shows service board) (pools : List PoolConfig) :
    KeepsConfigured pools service ↔
      ∀ id, ¬((board id).byStartup ∧ (board id).byReload) ∧
        ((board id).byStartup ∨ (board id).byReload ↔ id ∈ enabledIds pools) := by
  rw [KeepsConfigured, ← forall_and]
  refine forall_congr' fun id => ?_
  rw [← instancesOf_ne_nil, ← mem_enabledIds, h.instances, h.byReload]
  cases (board id).byStartup <;> cases service.poolTasks.lookup id <;> simp

/-- A pool that is enabled and whose compared settings are those that were applied. -/
def LeftAlone (applied newPools : List PoolConfig) (id : String) : Prop :=
  ∃ oldPool newPool, sectionOf applied id = some oldPool ∧ sectionOf newPools id = some newPool ∧
    newPool.enabled ∧ poolConfigChanged oldPool newPool = false

/-- The pools of the file, or those before it when it is not loaded. -/
def poolsAfter (pools : List PoolConfig) (file : ConfigFile) : List PoolConfig :=
  (file.loaded.map Prod.snd).getD pools

/-- The pools of the last file that was loaded. -/
def lastLoaded (pools : List PoolConfig) (files : List ConfigFile) : List PoolConfig :=
  files.foldl poolsAfter pools

/-- Every file that is loaded leaves the pools alone that the program started. -/
def LeavesStarted (started : List String) : List PoolConfig → List ConfigFile → Prop
  | _, [] => True
  | applied, file :: files =>
      (∀ loaded, file.loaded = some loaded → ∀ id ∈ started, LeftAlone applied loaded.2 id) ∧
        LeavesStarted started (poolsAfter applied file) files

/-- Every enabled pool of a file names a coin of its templates. -/
def KnowsCoins (loaded : List String × List PoolConfig) : Prop :=
  ∀ config ∈ loaded.2, config.enabled → config.coin.any loaded.1.contains

/-- No pool is enabled in a section behind one that disables it. -/
def EnablesFirst (pools : List PoolConfig) : Prop :=
  ∀ config ∈ pools, config.enabled →
    ∃ first, sectionOf pools config.id = some first ∧ first.enabled

theorem EnablesFirst.sectionOf {pools : List PoolConfig} (h : EnablesFirst pools) {id : String}
    (hid : id ∈ enabledIds pools) :
    ∃ first, sectionOf pools id = some first ∧ first.enabled := by
  obtain ⟨config, hmem, henabled, rfl⟩ := mem_enabledIds.mp hid
  exact h config hmem henabled

theorem EnablesFirst.disables_eq_false {pools applied : List PoolConfig} (h : EnablesFirst pools)
    {id : String} (hid : id ∈ enabledIds pools) : disables applied pools id = false := by
  obtain ⟨first, hfirst, henabled⟩ := h.sectionOf hid
  rw [disables, hfirst]
  split
  · rename_i hnew
    cases hnew
    simp [henabled]
  · rfl

/-- A pool that runs is left alone when it is enabled and not restarted. -/
theorem leftAlone_iff {applied pools : List PoolConfig} (h : EnablesFirst pools) {id : String}
    (hid : id ∈ enabledIds applied) :
    LeftAlone applied pools id ↔ id ∈ enabledIds pools ∧ restarts applied pools id = false := by
  obtain ⟨oldPool, hold⟩ := exists_sectionOf hid
  constructor
  · rintro ⟨_, newPool, hold', hnew, henabled, hsame⟩
    cases hold.symm.trans hold'
    refine ⟨mem_enabledIds_of_sectionOf hnew henabled, ?_⟩
    rw [restarts, hold, hnew]
    simp [hsame]
  · rintro ⟨hin, hsame⟩
    obtain ⟨newPool, hnew, henabled⟩ := h.sectionOf hin
    refine ⟨oldPool, newPool, hold, hnew, henabled, ?_⟩
    rw [restarts, hold, hnew] at hsame
    simpa [henabled] using hsame

theorem namesCoin {loaded : List String × List PoolConfig} (hcoins : KnowsCoins loaded)
    (hfirst : EnablesFirst loaded.2) {id : String} (hid : id ∈ enabledIds loaded.2) :
    NamesCoin loaded.1 loaded.2 id := by
  obtain ⟨first, hsection, henabled⟩ := hfirst.sectionOf hid
  exact ⟨first, hsection, hcoins first (List.mem_of_find?_eq_some hsection) henabled⟩

/-- The pools of the program run as they were started, and all others as the reloads left them. -/
structure Settled (started : List String) (service : ConfigHotReloadService)
    (board : String → PoolStatus) : Prop where
  shows : Shows service board
  byStartup : ∀ id, (board id).byStartup = true ↔ id ∈ started
  registered : ∀ id, (board id).registered = true ↔ id ∈ enabledIds service.clusterPools
  byReload : ∀ id, (board id).byReload = true ↔
    id ∈ enabledIds service.clusterPools ∧ id ∉ started
  enabled : ∀ id ∈ started, id ∈ enabledIds service.clusterPools

theorem Settled.keepsConfigured {started : List String} (h : Settled started service board) :
    KeepsConfigured service.clusterPools service := by
  rw [keepsConfigured_iff_board h.shows]
  intro id
  rw [h.byStartup, h.byReload]
  refine ⟨fun hboth => hboth.2.2 hboth.1, ?_⟩
  constructor
  · rintro (hstarted | hreload)
    · exact h.enabled id hstarted
    · exact hreload.1
  · intro hin
    by_cases hstarted : id ∈ started
    · exact Or.inl hstarted
    · exact Or.inr ⟨hin, hstarted⟩

theorem clusterPools_reloadPools (h : service.pools ≠ []) :
    (reloadPools coinTemplates newPools service).clusterPools = newPools := by
  rw [reloadPools_eq fun hempty => h hempty.1]

/-- What is known of a pool after a file is loaded. -/
def boardAfter (service : ConfigHotReloadService) (newPools : List PoolConfig)
    (board : String → PoolStatus) (id : String) : PoolStatus :=
  (board id).reload ((enabledIds newPools).contains id)
    (disables service.clusterPools newPools id) (restarts service.clusterPools newPools id)

section step

variable {started : List String} {loaded : List String × List PoolConfig}

theorem Settled.shows_reload (h : Settled started service board) (hcoins : KnowsCoins loaded)
    (hfirst : EnablesFirst loaded.2) :
    Shows (reloadPools loaded.1 loaded.2 service) (boardAfter service loaded.2 board) := by
  apply shows_reloadPools h.shows
  · intro id hreload
    exact (h.registered id).mpr ((h.byReload id).mp hreload).1
  · intro id hid
    exact namesCoin hcoins hfirst hid

theorem contains_enabledIds {pools : List PoolConfig} {id : String} :
    (enabledIds pools).contains id = true ↔ id ∈ enabledIds pools := List.contains_iff_mem

theorem EnablesFirst.not_disables {applied : List PoolConfig}
    (hfirst : EnablesFirst newPools) {id : String}
    (hin : (enabledIds newPools).contains id = true) : disables applied newPools id = false :=
  hfirst.disables_eq_false (contains_enabledIds.mp hin)

/-- A pool that the program did not start runs when it is enabled in the file. -/
theorem Settled.boardAfter_of_notMem (h : Settled started service board)
    (hfirst : EnablesFirst loaded.2) {id : String} (hid : id ∉ started) :
    (boardAfter service loaded.2 board id).byStartup = false ∧
      (boardAfter service loaded.2 board id).byReload = (enabledIds loaded.2).contains id ∧
      (boardAfter service loaded.2 board id).registered = (enabledIds loaded.2).contains id := by
  have hregistered : (board id).registered = (board id).byReload := by
    rw [Bool.eq_iff_iff, h.registered, h.byReload]
    simp [hid]
  refine ⟨?_, PoolStatus.reload_of_byReload hregistered hfirst.not_disables _⟩
  rw [boardAfter, PoolStatus.byStartup_reload, Bool.eq_false_iff, Ne, h.byStartup]
  exact hid

/-- A pool that the program started runs on, and once more when it is restarted. -/
theorem Settled.boardAfter_of_mem (h : Settled started service board)
    (hfirst : EnablesFirst loaded.2) {id : String} (hid : id ∈ started) :
    (boardAfter service loaded.2 board id).byStartup = true ∧
      (boardAfter service loaded.2 board id).byReload = ((enabledIds loaded.2).contains id &&
        restarts service.clusterPools loaded.2 id) ∧
      (boardAfter service loaded.2 board id).registered = (enabledIds loaded.2).contains id := by
  have hregistered : (board id).registered = true := (h.registered id).mpr (h.enabled id hid)
  have hreload : (board id).byReload = false := by
    rw [Bool.eq_false_iff, Ne, h.byReload]
    exact fun hreload => hreload.2 hid
  refine ⟨?_, PoolStatus.reload_of_byStartup hregistered hreload hfirst.not_disables _⟩
  rw [boardAfter, PoolStatus.byStartup_reload]
  exact (h.byStartup id).mpr hid

/-- What is configured runs after a reload when the pools of the program are left alone. -/
theorem Settled.keepsConfigured_reload_iff (h : Settled started service board)
    (hcoins : KnowsCoins loaded) (hfirst : EnablesFirst loaded.2) :
    KeepsConfigured loaded.2 (reloadPools loaded.1 loaded.2 service) ↔
      ∀ id ∈ started, LeftAlone service.clusterPools loaded.2 id := by
  rw [keepsConfigured_iff_board (h.shows_reload hcoins hfirst)]
  refine forall_congr' fun id => ?_
  by_cases hid : id ∈ started
  · obtain ⟨hstartup, hreload, -⟩ := h.boardAfter_of_mem hfirst hid
    rw [hstartup, hreload, leftAlone_iff hfirst (h.enabled id hid)]
    simp only [hid, true_and, true_or, forall_const]
    rw [← contains_enabledIds]
    cases (enabledIds loaded.2).contains id <;>
      cases restarts service.clusterPools loaded.2 id <;> simp
  · obtain ⟨hstartup, hreload, -⟩ := h.boardAfter_of_notMem hfirst hid
    rw [hstartup, hreload, contains_enabledIds]
    simp [hid]

theorem Settled.pools_ne_nil (h : Settled started service board) (hstarted : started ≠ []) :
    service.pools ≠ [] := by
  obtain ⟨id, rest, rfl⟩ := List.exists_cons_of_ne_nil hstarted
  have hid : id ∈ service.pools := (h.shows.registered id).mp
    ((h.registered id).mpr (h.enabled id List.mem_cons_self))
  exact List.ne_nil_of_mem hid

/-- Left alone, the pools of the program stay the only ones that no reload has started. -/
theorem Settled.reload (h : Settled started service board) (hcoins : KnowsCoins loaded)
    (hfirst : EnablesFirst loaded.2) (hstarted : started ≠ [])
    (halone : ∀ id ∈ started, LeftAlone service.clusterPools loaded.2 id) :
    Settled started (reloadPools loaded.1 loaded.2 service)
      (boardAfter service loaded.2 board) := by
  have hpools : service.pools ≠ [] := h.pools_ne_nil hstarted
  have halone' : ∀ id ∈ started, id ∈ enabledIds loaded.2 ∧
      restarts service.clusterPools loaded.2 id = false :=
    fun id hid => (leftAlone_iff hfirst (h.enabled id hid)).mp (halone id hid)
  refine ⟨h.shows_reload hcoins hfirst, ?_, ?_, ?_, ?_⟩
  · intro id
    rw [boardAfter, PoolStatus.byStartup_reload]
    exact h.byStartup id
  · intro id
    rw [clusterPools_reloadPools hpools, ← contains_enabledIds, ← Bool.eq_iff_iff]
    by_cases hid : id ∈ started
    · exact (h.boardAfter_of_mem hfirst hid).2.2
    · exact (h.boardAfter_of_notMem hfirst hid).2.2
  · intro id
    rw [clusterPools_reloadPools hpools]
    by_cases hid : id ∈ started
    · rw [(h.boardAfter_of_mem hfirst hid).2.1, (halone' id hid).2]
      simp [hid]
    · rw [(h.boardAfter_of_notMem hfirst hid).2.1, contains_enabledIds]
      simp [hid]
  · intro id hid
    rw [clusterPools_reloadPools hpools]
    exact (halone' id hid).1

end step

theorem forall_isPrefix_cons {α : Type} {P : List α → Prop} {a : α} {l : List α} :
    (∀ before, before <+: a :: l → P before) ↔
      P [] ∧ ∀ before, before <+: l → P (a :: before) := by
  constructor
  · intro h
    refine ⟨h [] List.nil_prefix, ?_⟩
    intro before hbefore
    exact h _ (List.cons_prefix_cons.mpr ⟨rfl, hbefore⟩)
  · rintro ⟨hnil, hcons⟩ before hbefore
    obtain rfl | ⟨rest, rfl, hrest⟩ := List.prefix_cons_iff.mp hbefore
    · exact hnil
    · exact hcons rest hrest

/-- A run keeps what is configured when it leaves the pools of the program alone. -/
theorem Settled.forall_keepsConfigured_iff {started : List String} {files : List ConfigFile}
    (h : Settled started service board) (hstarted : started ≠ [])
    (hcoins : ∀ file ∈ files, ∀ loaded, file.loaded = some loaded → KnowsCoins loaded)
    (hfirst : ∀ file ∈ files, ∀ loaded, file.loaded = some loaded → EnablesFirst loaded.2) :
    (∀ before, before <+: files →
        KeepsConfigured (lastLoaded service.clusterPools before)
          (before.foldl reloadPoolsAsync service)) ↔
      LeavesStarted started service.clusterPools files := by
  induction files generalizing service board with
  | nil =>
      simp only [List.prefix_nil, forall_eq, LeavesStarted, iff_true]
      exact h.keepsConfigured
  | cons file files ih =>
      have hcoins' : ∀ file ∈ files, ∀ loaded, file.loaded = some loaded → KnowsCoins loaded :=
        fun file hfile => hcoins file (List.mem_cons_of_mem _ hfile)
      have hfirst' : ∀ file ∈ files, ∀ loaded, file.loaded = some loaded →
          EnablesFirst loaded.2 := fun file hfile => hfirst file (List.mem_cons_of_mem _ hfile)
      rw [forall_isPrefix_cons, LeavesStarted]
      simp only [lastLoaded, List.foldl_cons, List.foldl_nil]
      rw [and_iff_right h.keepsConfigured]
      cases hloaded : file.loaded with
      | none =>
          have hsame : service.reloadPoolsAsync file = service := by rw [reloadPoolsAsync, hloaded]
          have hpools : poolsAfter service.clusterPools file = service.clusterPools := by
            rw [poolsAfter, hloaded]
            rfl
          rw [hsame, hpools]
          simpa [lastLoaded] using ih h hcoins' hfirst'
      | some loaded =>
          have hreload : service.reloadPoolsAsync file =
              reloadPools loaded.1 loaded.2 service := by rw [reloadPoolsAsync, hloaded]
          have hpools : poolsAfter service.clusterPools file = loaded.2 := by
            rw [poolsAfter, hloaded]
            rfl
          have hknown : KnowsCoins loaded := hcoins file List.mem_cons_self loaded hloaded
          have hstep := h.keepsConfigured_reload_iff hknown
            (hfirst file List.mem_cons_self loaded hloaded)
          rw [hreload, hpools]
          simp only [Option.some.injEq, forall_eq']
          by_cases halone : ∀ id ∈ started, LeftAlone service.clusterPools loaded.2 id
          · have hnext := h.reload hknown (hfirst file List.mem_cons_self loaded hloaded) hstarted
              halone
            have hih := ih hnext hcoins' hfirst'
            rw [clusterPools_reloadPools (h.pools_ne_nil hstarted)] at hih
            rw [and_iff_right halone]
            exact hih
          · constructor
            · intro hkeeps
              exact absurd (hstep.mp (hkeeps [] List.nil_prefix)) halone
            · exact fun hleaves => absurd hleaves.1 halone

/-! ### The program -/

theorem startup_eq_some {clusterConfig : ClusterConfig}
    (h : startup coinTemplates clusterConfig = some service) :
    ∃ pools, validateConfig clusterConfig = some pools ∧
      service = {
        live := (pools.filter PoolConfig.enabled).map fun config => ⟨config.id, .application⟩
        pools := (pools.filter PoolConfig.enabled).map PoolConfig.id
        poolTasks := []
        sources := 0
        clusterPools := pools } := by
  obtain ⟨pools, hvalid, h⟩ := Option.bind_eq_some_iff.mp h
  obtain ⟨-, -, h⟩ := Option.bind_eq_some_iff.mp h
  exact ⟨pools, hvalid, (Option.some_inj.mp h).symm⟩

/-- The instances of one pool among those of distinct pools. -/
theorem filter_map_application {ids : List String} (hids : ids.Nodup) (id : String) :
    (ids.map fun id => (⟨id, .application⟩ : PoolInstance)).filter (fun pool => pool.poolId == id) =
      if id ∈ ids then [⟨id, .application⟩] else [] := by
  have hfilter : ids.filter (· == id) = if id ∈ ids then [id] else [] := by
    rw [List.filter_beq, hids.count]
    split <;> rfl
  rw [List.filter_map]
  have hcomp : (fun pool : PoolInstance => pool.poolId == id) ∘
      (fun id => (⟨id, .application⟩ : PoolInstance)) = (· == id) := rfl
  rw [hcomp, hfilter]
  split <;> rfl

/-- Every pool that is enabled has one instance at first. -/
theorem settled_startup {clusterConfig : ClusterConfig}
    (h : startup coinTemplates clusterConfig = some service) :
    Settled (enabledIds service.clusterPools) service fun id =>
      { byStartup := (enabledIds service.clusterPools).contains id
        byReload := false
        registered := (enabledIds service.clusterPools).contains id } := by
  obtain ⟨pools, hvalid, rfl⟩ := startup_eq_some h
  have hnodup : ((pools.filter PoolConfig.enabled).map PoolConfig.id).Nodup :=
    (validateConfig_eq_some hvalid).2.sublist (List.filter_sublist.map _)
  have hmem : ∀ id, id ∈ enabledIds pools ↔
      id ∈ (pools.filter PoolConfig.enabled).map PoolConfig.id := fun id => List.mem_dedup
  refine ⟨⟨hnodup, ?_, fun id => rfl, ?_, ?_, ?_⟩, ?_, ?_, ?_, fun id hid => hid⟩
  · intro id
    rw [contains_enabledIds]
    exact hmem id
  · intro id
    have hlive : (pools.filter PoolConfig.enabled).map (fun config =>
        (⟨config.id, .application⟩ : PoolInstance)) =
        ((pools.filter PoolConfig.enabled).map PoolConfig.id).map fun id => ⟨id, .application⟩ := by
      rw [List.map_map]
      rfl
    rw [instancesOf, hlive, filter_map_application hnodup]
    simp only [contains_enabledIds, hmem, List.lookup_nil, Option.map_none, Option.toList_none,
      List.append_nil]
  · intro id number hlookup
    cases hlookup
  · intro id id' number hlookup
    cases hlookup
  · intro id
    exact contains_enabledIds
  · intro id
    exact contains_enabledIds
  · intro id
    simp

/-- Just the pools that are enabled run after each reload, and each of them once, when every
file enables the pools of the program and changes none of their compared settings. -/
theorem keepsConfigured_iff {clusterConfig : ClusterConfig} {files : List ConfigFile}
    (hstart : startup coinTemplates clusterConfig = some service)
    (hcoins : ∀ file ∈ files, ∀ loaded, file.loaded = some loaded → KnowsCoins loaded)
    (hfirst : ∀ file ∈ files, ∀ loaded, file.loaded = some loaded → EnablesFirst loaded.2) :
    (∀ before, before <+: files →
        KeepsConfigured (lastLoaded service.clusterPools before)
          (before.foldl reloadPoolsAsync service)) ↔
      LeavesStarted (enabledIds service.clusterPools) service.clusterPools files := by
  have hstarted : enabledIds service.clusterPools ≠ [] := by
    obtain ⟨pools, hvalid, rfl⟩ := startup_eq_some hstart
    obtain ⟨config, hmem, henabled⟩ := (validateConfig_eq_some hvalid).1
    exact List.ne_nil_of_mem (mem_enabledIds.mpr ⟨config, hmem, henabled, rfl⟩)
  exact (settled_startup hstart).forall_keepsConfigured_iff hstarted hcoins hfirst

/-- The section of a pool that is enabled or not. -/
def bitcoinPool (enabled : Bool) : PoolConfig where
  id := "btc"
  coin := some "bitcoin"
  enabled := enabled
  enableInternalStratum := some true

def litecoinPool : PoolConfig where
  id := "ltc"
  coin := some "litecoin"
  enabled := true

/-- A program that has started one pool. -/
def runsBitcoin : ConfigHotReloadService where
  live := [⟨"btc", .application⟩]
  pools := ["btc"]
  poolTasks := []
  sources := 0
  clusterPools := [bitcoinPool true]

theorem startup_bitcoin :
    startup ["bitcoin"] { pools := some [bitcoinPool true] } = some runsBitcoin := rfl

def addsLitecoin : ConfigFile where
  config := some { pools := some [bitcoinPool true, litecoinPool] }
  coinTemplates := some ["bitcoin", "litecoin"]

theorem loaded_addsLitecoin :
    addsLitecoin.loaded = some (["bitcoin", "litecoin"], [bitcoinPool true, litecoinPool]) := rfl

/-- A pool is added to one that runs. -/
theorem keepsConfigured_addsLitecoin :
    KeepsConfigured (lastLoaded runsBitcoin.clusterPools [addsLitecoin])
      ([addsLitecoin].foldl reloadPoolsAsync runsBitcoin) := by
  have hloaded : ∀ file ∈ [addsLitecoin], ∀ loaded, file.loaded = some loaded →
      loaded = (["bitcoin", "litecoin"], [bitcoinPool true, litecoinPool]) := by
    intro file hfile loaded hloaded
    rw [List.mem_singleton.mp hfile, loaded_addsLitecoin] at hloaded
    exact (Option.some_inj.mp hloaded).symm
  have hkeeps : ∀ before, before <+: [addsLitecoin] →
      KeepsConfigured (lastLoaded runsBitcoin.clusterPools before)
        (before.foldl reloadPoolsAsync runsBitcoin) := by
    refine (keepsConfigured_iff startup_bitcoin ?_ ?_).mpr ⟨?_, trivial⟩
    · intro file hfile loaded h
      rw [hloaded file hfile loaded h]
      intro config hmem _
      obtain rfl | rfl := List.mem_pair.mp hmem <;> rfl
    · intro file hfile loaded h
      rw [hloaded file hfile loaded h]
      intro config hmem _
      obtain rfl | rfl := List.mem_pair.mp hmem <;> exact ⟨_, rfl, rfl⟩
    · intro loaded h id hid
      rw [hloaded addsLitecoin List.mem_cons_self loaded h]
      obtain rfl : id = "btc" := List.mem_singleton.mp hid
      exact ⟨bitcoinPool true, bitcoinPool true, rfl, rfl, rfl, poolConfigChanged_self _⟩
  exact hkeeps _ (List.prefix_refl _)

def disablesBitcoin : ConfigFile where
  config := some { pools := some [bitcoinPool false] }
  coinTemplates := some ["bitcoin"]

/-- A pool that the program has started runs on when a file disables it. -/
theorem not_keepsConfigured_disablesBitcoin :
    ¬∀ (coinTemplates : List String) (clusterConfig : ClusterConfig)
      (service : ConfigHotReloadService) (files : List ConfigFile),
      startup coinTemplates clusterConfig = some service →
      (∀ file ∈ files, ∀ loaded, file.loaded = some loaded → KnowsCoins loaded) →
      KeepsConfigured (lastLoaded service.clusterPools files)
        (files.foldl reloadPoolsAsync service) := by
  intro h
  have hcoins : ∀ file ∈ [disablesBitcoin], ∀ loaded, file.loaded = some loaded →
      KnowsCoins loaded := by
    intro file hfile loaded hloaded
    rw [List.mem_singleton.mp hfile] at hloaded
    obtain rfl : (["bitcoin"], [bitcoinPool false]) = loaded := Option.some_inj.mp hloaded
    intro config hmem henabled
    rw [List.mem_singleton.mp hmem] at henabled
    cases henabled
  have hkeeps := (h ["bitcoin"] _ _ [disablesBitcoin] startup_bitcoin hcoins).2 "btc"
  have hlive : (⟨"btc", .application⟩ : PoolInstance) ∈
      ([disablesBitcoin].foldl reloadPoolsAsync runsBitcoin).live := by decide +kernel
  obtain ⟨config, hmem, henabled, -⟩ := hkeeps.mp ⟨_, hlive, rfl⟩
  have hsection : config = bitcoinPool false := List.mem_singleton.mp hmem
  rw [hsection] at henabled
  cases henabled

end ConfigHotReloadService

end Miningcore.Configuration
