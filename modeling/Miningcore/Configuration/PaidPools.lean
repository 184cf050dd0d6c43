import Miningcore.Configuration.LivePools
import Miningcore.Foundation.DictionaryUpdates
import Miningcore.Foundation.GuardedRuns

/-!
# The pools that are paid

The payout manager attaches the first pool that comes online under an id and keeps it. A reload
starts other pools, and removes them, in the registry of the program only.

## Implementation notes

A payout cycle looks at a snapshot of its pools, in an order that is not specified, and everything
else can happen before it comes to the next pool of the snapshot. What is done with a pool whose
payments are enabled is left out, and so are requests of an administrator.
-/

namespace Miningcore.Configuration

open Foundation

structure MiningPool where
  config : PoolConfig
  token : StopToken

/-- The payments of the pool are processed. -/
def MiningPool.pays (pool : MiningPool) : Bool :=
  pool.config.enabled && pool.config.paymentProcessing.any PoolPaymentProcessingConfig.enabled

/-- The registry of the program and that of the payout manager. -/
structure PaidPools where
  /-- The pools that are live. -/
  pools : Dictionary String MiningPool
  /-- The pools of the payout manager. -/
  attached : Dictionary String MiningPool
  /-- The pools that the payout cycle has still to look at. -/
  pending : List MiningPool

namespace PaidPools

inductive PoolStatus where
  | online
  | offline

structure PoolStatusNotification where
  pool : MiningPool
  status : PoolStatus

def initial : PaidPools where
  pools := .empty
  attached := .empty
  pending := []

def attachPool (s : PaidPools) (pool : MiningPool) : PaidPools :=
  { s with attached := s.attached.tryAdd pool.config.id pool }

def onPoolStatusNotification (s : PaidPools) (notification : PoolStatusNotification) : PaidPools :=
  match notification.status with
  | .online => s.attachPool notification.pool
  | .offline => s

/-- An enabled pool without a section of payments ends the cycle with an exception. -/
def endsCycle (pool : MiningPool) : Bool :=
  pool.config.enabled && pool.config.paymentProcessing.isNone

inductive Step where
  /-- A pool is started, with the program or by a reload. -/
  | start (pool : MiningPool)
  /-- A reload removes a pool. -/
  | remove (id : String)
  | notify (notification : PoolStatusNotification)
  /-- A payout cycle begins. -/
  | cycle (order : List String)
  /-- The payout cycle comes to its next pool. -/
  | next

def step (s : PaidPools) : Step → Option PaidPools
  | .start pool => some { s with pools := s.pools.set pool.config.id pool }
  | .remove id => some { s with pools := s.pools.remove id }
  | .notify notification => some (s.onPoolStatusNotification notification)
  | .cycle order =>
      if s.pending.isEmpty && order.isPerm s.attached.keys then
        some { s with pending := order.filterMap s.attached.find? }
      else none
  | .next =>
      match s.pending with
      | [] => none
      | pool :: rest => some { s with pending := if endsCycle pool then [] else rest }

/-- The pool whose payments are processed now. -/
def processing (s : PaidPools) : Option MiningPool := s.pending.head?.filter MiningPool.pays

def Step.isPayout : Step → Bool
  | .cycle _ | .next => true
  | _ => false

/-- The pool whose payments are processed is live. -/
def PaysLive (s : PaidPools) : Prop :=
  ∀ pool, s.processing = some pool → s.pools.find? pool.config.id = some pool

/-- Payout cycles process live pools only, as long as nothing else happens. -/
def CyclesPayLive (s : PaidPools) : Prop :=
  ∀ cycles t, (∀ a ∈ cycles, a.isPayout) → runSteps step s cycles = some t → t.PaysLive

/-- No pool is started or removed in the place of an attached one that has payments, and no pool
that has payments is attached when it is not live. -/
def Keeps (s : PaidPools) : Step → Prop
  | .start pool => ∀ old, s.attached.find? pool.config.id = some old → old.pays → old = pool
  | .remove id => ∀ old, s.attached.find? id = some old → ¬old.pays
  | .notify notification =>
      notification.status = .online → s.attached.find? notification.pool.config.id = none →
        notification.pool.pays → s.pools.find? notification.pool.config.id = some notification.pool
  | .cycle _ | .next => True

/-! ### The invariant -/

/-- Pools are attached under their ids, and a cycle looks at attached pools. -/
structure WellFormed (s : PaidPools) : Prop where
  id_eq : ∀ id pool, s.attached.find? id = some pool → pool.config.id = id
  pending : ∀ pool ∈ s.pending, s.attached.find? pool.config.id = some pool

/-- The attached pools that have payments are live. -/
def Follows (s : PaidPools) : Prop :=
  ∀ pool, s.attached.find? pool.config.id = some pool → pool.pays →
    s.pools.find? pool.config.id = some pool

theorem wellFormed_initial : WellFormed initial where
  id_eq := by
    intro id pool h
    cases h
  pending := by
    intro pool h
    cases h

theorem follows_initial : Follows initial := by
  intro pool h
  cases h

theorem find?_attachPool (s : PaidPools) (pool : MiningPool) (id : String) :
    (s.attachPool pool).attached.find? id =
      (s.attached.find? id).or (if id = pool.config.id then some pool else none) :=
  Dictionary.find?_tryAdd _ _ _ _

/-- What is attached stays attached. -/
theorem find?_attachPool_of_some {s : PaidPools} {id : String} {old : MiningPool}
    (h : s.attached.find? id = some old) (pool : MiningPool) :
    (s.attachPool pool).attached.find? id = some old := by
  rw [find?_attachPool, h, Option.some_or]

theorem WellFormed.attachPool {s : PaidPools} (h : WellFormed s) (pool : MiningPool) :
    WellFormed (s.attachPool pool) where
  id_eq := by
    intro id old hold
    rw [find?_attachPool, Option.or_eq_some_iff] at hold
    obtain hold | ⟨-, hnew⟩ := hold
    · exact h.id_eq id old hold
    · obtain ⟨hid, hpool⟩ := Option.ite_none_right_eq_some.mp hnew
      rw [← Option.some_inj.mp hpool, hid]
  pending := by
    intro old hold
    exact find?_attachPool_of_some (h.pending old hold) pool

theorem WellFormed.step {s t : PaidPools} (a : Step) (h : WellFormed s)
    (hstep : s.step a = some t) : WellFormed t := by
  cases a with
  | start pool =>
      obtain rfl := Option.some_inj.mp hstep
      exact ⟨h.id_eq, h.pending⟩
  | remove id =>
      obtain rfl := Option.some_inj.mp hstep
      exact ⟨h.id_eq, h.pending⟩
  | notify notification =>
      obtain rfl := Option.some_inj.mp hstep
      obtain ⟨pool, status⟩ := notification
      cases status with
      | online => exact h.attachPool pool
      | offline => exact h
  | cycle order =>
      obtain ⟨-, ht⟩ := Option.ite_none_right_eq_some.mp hstep
      obtain rfl := Option.some_inj.mp ht
      refine ⟨h.id_eq, ?_⟩
      intro pool hpool
      obtain ⟨id, -, hid⟩ := List.mem_filterMap.mp hpool
      rw [h.id_eq id pool hid]
      exact hid
  | next =>
      obtain ⟨pools, attached, pending⟩ := s
      cases pending with
      | nil => cases hstep
      | cons pool rest =>
          obtain rfl := Option.some_inj.mp hstep
          refine ⟨h.id_eq, ?_⟩
          intro other hother
          apply h.pending other
          dsimp only at hother
          split at hother
          · cases hother
          · exact List.mem_cons_of_mem _ hother

/-- A payout step changes no registry. -/
theorem registries_of_isPayout {s t : PaidPools} {a : Step} (ha : a.isPayout)
    (hstep : s.step a = some t) : t.pools = s.pools ∧ t.attached = s.attached := by
  cases a with
  | start pool => cases ha
  | remove id => cases ha
  | notify notification => cases ha
  | cycle order =>
      obtain ⟨-, ht⟩ := Option.ite_none_right_eq_some.mp hstep
      obtain rfl := Option.some_inj.mp ht
      exact ⟨rfl, rfl⟩
  | next =>
      obtain ⟨pools, attached, pending⟩ := s
      cases pending with
      | nil => cases hstep
      | cons pool rest =>
          obtain rfl := Option.some_inj.mp hstep
          exact ⟨rfl, rfl⟩

theorem Follows.isPayout {s t : PaidPools} {a : Step} (h : Follows s) (ha : a.isPayout)
    (hstep : s.step a = some t) : Follows t := by
  obtain ⟨hpools, hattached⟩ := registries_of_isPayout ha hstep
  intro pool hpool hpays
  rw [hattached] at hpool
  rw [hpools]
  exact h pool hpool hpays

/-! ### The cycles -/

theorem Follows.paysLive {s : PaidPools} (h : Follows s) (hwell : WellFormed s) : s.PaysLive := by
  intro pool hpool
  obtain ⟨hhead, hpays⟩ := Option.filter_eq_some_iff.mp hpool
  exact h pool (hwell.pending pool (List.mem_of_mem_head? hhead)) hpays

/-- A cycle comes to its end. -/
theorem exists_run_idle (s : PaidPools) :
    ∃ steps, (∀ a ∈ steps, a.isPayout) ∧ runSteps step s steps = some { s with pending := [] } := by
  obtain ⟨pools, attached, pending⟩ := s
  induction pending with
  | nil => exact ⟨[], by simp, rfl⟩
  | cons pool rest ih =>
      by_cases hends : endsCycle pool
      · refine ⟨[.next], by simp [Step.isPayout], ?_⟩
        rw [runSteps_cons]
        simp [step, hends]
      · obtain ⟨steps, hpayout, hrun⟩ := ih
        refine ⟨.next :: steps, ?_, ?_⟩
        · rw [List.forall_mem_cons]
          exact ⟨rfl, hpayout⟩
        · rw [runSteps_cons]
          simpa [step, hends] using hrun

/-- A cycle can begin with any pool that is attached. -/
theorem exists_step_cycle {s : PaidPools} {id : String} {pool : MiningPool} (hidle : s.pending = [])
    (hpool : s.attached.find? id = some pool) :
    ∃ order t, s.step (.cycle order) = some t ∧ t.pools = s.pools ∧
      t.pending.head? = some pool := by
  have hmem : id ∈ s.attached.keys := Dictionary.exists_find?_iff.mp ⟨pool, hpool⟩
  have hperm : (id :: s.attached.keys.erase id).isPerm s.attached.keys :=
    List.isPerm_iff.mpr (List.perm_cons_erase hmem).symm
  refine ⟨id :: s.attached.keys.erase id,
    { s with pending := pool :: (s.attached.keys.erase id).filterMap s.attached.find? }, ?_, rfl,
    rfl⟩
  rw [step, hidle, hperm, List.filterMap_cons_some hpool]
  rfl

/-- Cycles process live pools when the attached pools that have payments are live, and only then. -/
theorem cyclesPayLive_iff {s : PaidPools} (h : WellFormed s) : s.CyclesPayLive ↔ s.Follows := by
  constructor
  · intro hcycles pool hpool hpays
    obtain ⟨steps, hpayout, hrun⟩ := exists_run_idle s
    obtain ⟨order, t, hstep, hpools, hhead⟩ :=
      exists_step_cycle (s := { s with pending := [] }) rfl hpool
    have hrun' : runSteps step s (steps ++ [.cycle order]) = some t := by
      rw [runSteps_append_of_eq hrun, runSteps_cons, hstep]
      rfl
    have hpayout' : ∀ a ∈ steps ++ [Step.cycle order], a.isPayout := by
      rw [List.forall_mem_append, List.forall_mem_singleton]
      exact ⟨hpayout, rfl⟩
    have hprocessing : t.processing = some pool := Option.filter_eq_some_iff.mpr ⟨hhead, hpays⟩
    have hlive := hcycles _ t hpayout' hrun' pool hprocessing
    rwa [hpools] at hlive
  · intro hfollows cycles t hpayout hrun
    induction cycles generalizing s with
    | nil => exact Option.some_inj.mp hrun ▸ hfollows.paysLive h
    | cons a cycles ih =>
        rw [runSteps_cons] at hrun
        obtain ⟨u, hu, hrun⟩ := Option.bind_eq_some_iff.mp hrun
        obtain ⟨ha, hpayout⟩ := List.forall_mem_cons.mp hpayout
        exact ih (h.step a hu) (hfollows.isPayout ha hu) hpayout hrun

/-! ### The steps -/

section steps

variable {s t : PaidPools} (hwell : WellFormed s) (h : Follows s)

include hwell h

theorem follows_start_iff (pool : MiningPool) :
    Follows { s with pools := s.pools.set pool.config.id pool } ↔ Keeps s (.start pool) := by
  constructor
  · intro hfollows old hold hpays
    have hid : old.config.id = pool.config.id := hwell.id_eq _ old hold
    have hlive := hfollows old (by rw [hid]; exact hold) hpays
    dsimp only at hlive
    rw [Dictionary.find?_set, if_pos hid] at hlive
    exact (Option.some_inj.mp hlive).symm
  · intro hkeeps old hold hpays
    dsimp only at hold ⊢
    rw [Dictionary.find?_set]
    split
    · rename_i hid
      rw [hid] at hold
      rw [hkeeps old hold hpays]
    · exact h old hold hpays

theorem follows_remove_iff (id : String) :
    Follows { s with pools := s.pools.remove id } ↔ Keeps s (.remove id) := by
  constructor
  · intro hfollows old hold hpays
    obtain rfl : old.config.id = id := hwell.id_eq _ old hold
    have hlive := hfollows old hold hpays
    dsimp only at hlive
    rw [Dictionary.find?_remove, if_pos rfl] at hlive
    cases hlive
  · intro hkeeps old hold hpays
    dsimp only at hold ⊢
    rw [Dictionary.find?_remove]
    split
    · rename_i hid
      rw [hid] at hold
      exact absurd hpays (hkeeps old hold)
    · exact h old hold hpays

omit hwell in
theorem follows_attachPool_iff (pool : MiningPool) :
    Follows (s.attachPool pool) ↔ Keeps s (.notify ⟨pool, .online⟩) := by
  constructor
  · intro hfollows _ hnone hpays
    refine hfollows pool ?_ hpays
    rw [find?_attachPool, hnone, if_pos rfl]
    rfl
  · intro hkeeps old hold hpays
    rw [find?_attachPool, Option.or_eq_some_iff] at hold
    obtain hold | ⟨hnone, hnew⟩ := hold
    · exact h old hold hpays
    · obtain ⟨hid, hpool⟩ := Option.ite_none_right_eq_some.mp hnew
      obtain rfl := Option.some_inj.mp hpool
      exact hkeeps rfl hnone hpays

theorem follows_step_iff (a : Step) (hstep : s.step a = some t) : Follows t ↔ Keeps s a := by
  cases a with
  | start pool =>
      obtain rfl := Option.some_inj.mp hstep
      exact follows_start_iff hwell h pool
  | remove id =>
      obtain rfl := Option.some_inj.mp hstep
      exact follows_remove_iff hwell h id
  | notify notification =>
      obtain rfl := Option.some_inj.mp hstep
      obtain ⟨pool, status⟩ := notification
      cases status with
      | online => exact follows_attachPool_iff h pool
      | offline => exact iff_of_true h fun hstatus => by cases hstatus
  | cycle order => exact iff_of_true (h.isPayout rfl hstep) trivial
  | next => exact iff_of_true (h.isPayout rfl hstep) trivial

end steps

/-- Payout cycles process live pools only, whenever they run, exactly in the runs all of whose steps
keep the attached pools live. -/
theorem cyclesPayLive_throughout_iff (steps : List Step) :
    Throughout step CyclesPayLive initial steps ↔ Allows step Keeps initial steps := by
  refine throughout_iff_allows (W := WellFormed) (fun s a t hwell hstep => hwell.step a hstep) ?_
    wellFormed_initial ((cyclesPayLive_iff wellFormed_initial).mpr follows_initial) steps
  intro s a t hwell hcycles hstep
  rw [cyclesPayLive_iff (hwell.step a hstep)]
  exact follows_step_iff hwell ((cyclesPayLive_iff hwell).mp hcycles) a hstep

/-- A pool with payments, as the program starts it. -/
def bitcoinPool : MiningPool where
  config := {
    id := "btc"
    coin := some "bitcoin"
    enabled := true
    paymentProcessing := some {
      enabled := true
      minimumPayment := ⟨1, 2⟩
      payoutScheme := .PPLNS } }
  token := .application

/-- A pool comes online and is removed by a reload before the next payout cycle. -/
def removesBitcoin : List Step :=
  [.start bitcoinPool, .notify ⟨bitcoinPool, .online⟩, .remove "btc", .cycle ["btc"]]

theorem not_paysLive_removesBitcoin :
    ¬∀ (steps : List Step) (s : PaidPools), runSteps step initial steps = some s → s.PaysLive := by
  intro h
  have hlive := h removesBitcoin _ rfl bitcoinPool rfl
  cases hlive

/-! ### Reloads -/

open ConfigHotReloadService

/-- The pools that a reload starts, one after the other. -/
def startedPools (coinTemplates : List String) (newPools : List PoolConfig) :
    ℕ → List String → List MiningPool
  | _, [] => []
  | sources, id :: ids =>
      match sectionOf newPools id with
      | none => startedPools coinTemplates newPools sources ids
      | some config =>
          if config.coin.any coinTemplates.contains then
            ⟨config, .source sources⟩ :: startedPools coinTemplates newPools (sources + 1) ids
          else startedPools coinTemplates newPools sources ids

section reloads

variable (coinTemplates : List String) (newPools : List PoolConfig)
  (service : ConfigHotReloadService)

/-- The ids that a reload takes from the registry. -/
def removedIds : List String :=
  service.toRemove newPools ++ service.disabled newPools ++ service.restarted newPools

/-- What a reload does to the registry. -/
def reloadSteps : List Step :=
  (removedIds newPools service).map .remove ++
    (startedPools coinTemplates newPools service.sources
      (service.toAdd newPools ++ service.restarted newPools)).map .start

end reloads

/-- What the startup does to the registry. -/
def startupSteps (pools : List PoolConfig) : List Step :=
  (pools.filter PoolConfig.enabled).map fun config => .start ⟨config, .application⟩

/-- The ids of the registry are those of the service. -/
def Mirrors (s : PaidPools) (service : ConfigHotReloadService) : Prop :=
  ∀ id, id ∈ s.pools.keys ↔ id ∈ service.pools

section mirrors

variable {coinTemplates : List String} {newPools : List PoolConfig}
  {service : ConfigHotReloadService} {s : PaidPools}

theorem Mirrors.remove (h : Mirrors s service) (id : String) :
    Mirrors { s with pools := s.pools.remove id } (service.stopAndRemove id) := by
  intro j
  rw [Dictionary.mem_keys_remove, h, stopAndRemove, tryRemove, pools_stopPoolAsync]
  simp [and_comm]

theorem Mirrors.start (h : Mirrors s service) {config : PoolConfig} (token : StopToken)
    (hcoin : config.coin.any coinTemplates.contains) :
    Mirrors { s with pools := s.pools.set config.id ⟨config, token⟩ }
      (service.startPoolAsync coinTemplates config) := by
  intro j
  rw [Dictionary.mem_keys_set, h, startPoolAsync, if_pos hcoin]
  by_cases hj : j = config.id <;> simp [hj]

theorem Mirrors.removeAll (h : Mirrors s service) (ids : List String) :
    ∃ pools, runSteps step s (ids.map .remove) = some { s with pools := pools } ∧
      Mirrors { s with pools := pools } (ids.foldl stopAndRemove service) := by
  induction ids generalizing s service with
  | nil => exact ⟨s.pools, rfl, h⟩
  | cons id ids ih =>
      obtain ⟨pools, hrun, hmirrors⟩ := ih (h.remove id)
      refine ⟨pools, ?_, hmirrors⟩
      rw [List.map_cons, runSteps_cons]
      exact hrun

theorem sources_foldl_stopAndRemove (ids : List String) :
    (ids.foldl stopAndRemove service).sources = service.sources := by
  induction ids generalizing service with
  | nil => rfl
  | cons id ids ih =>
      rw [List.foldl_cons, ih]
      exact sources_stopPoolAsync service id

theorem sources_startPoolAsync {config : PoolConfig}
    (hcoin : config.coin.any coinTemplates.contains) :
    (service.startPoolAsync coinTemplates config).sources = service.sources + 1 := by
  rw [startPoolAsync, if_pos hcoin]

theorem Mirrors.startAll (h : Mirrors s service) (coinTemplates : List String)
    (newPools : List PoolConfig) (ids : List String) :
    ∃ pools, runSteps step s
        ((startedPools coinTemplates newPools service.sources ids).map .start) =
          some { s with pools := pools } ∧
      Mirrors { s with pools := pools } (ids.foldl (addPool coinTemplates newPools) service) := by
  induction ids generalizing s service with
  | nil => exact ⟨s.pools, rfl, h⟩
  | cons id ids ih =>
      rw [List.foldl_cons, startedPools, addPool]
      cases hsection : sectionOf newPools id with
      | none => exact ih h
      | some config =>
          by_cases hcoin : config.coin.any coinTemplates.contains
          · obtain ⟨pools, hrun, hmirrors⟩ := ih (h.start (.source service.sources) hcoin)
            rw [sources_startPoolAsync hcoin] at hrun
            refine ⟨pools, ?_, hmirrors⟩
            dsimp only
            rw [if_pos hcoin, List.map_cons, runSteps_cons]
            exact hrun
          · dsimp only
            rw [if_neg hcoin, startPoolAsync, if_neg hcoin]
            exact ih h

theorem foldl_removedIds :
    (removedIds newPools service).foldl stopAndRemove service =
      (service.restarted newPools).foldl stopAndRemove
        ((service.disabled newPools).foldl stopAndRemove
          ((service.toRemove newPools).foldl stopAndRemove service)) := by
  rw [removedIds, List.foldl_append, List.foldl_append]

/-- A reload changes the registry as it changes the pools of the service. -/
theorem Mirrors.reload (h : Mirrors s service) :
    ∃ pools, runSteps step s (reloadSteps coinTemplates newPools service) =
        some { s with pools := pools } ∧
      Mirrors { s with pools := pools } (reloadPools coinTemplates newPools service) := by
  by_cases hempty : service.pools = [] ∧ enabledIds newPools = []
  · obtain ⟨hpools, hnew⟩ := hempty
    refine ⟨s.pools, ?_, ?_⟩
    · simp [reloadSteps, removedIds, toRemove, toAdd, disabled, restarted, toCheck, startedPools,
        hpools, hnew]
    · rw [reloadPools_of_empty hpools hnew]
      exact h
  · obtain ⟨removed, hremove, hremoved⟩ := h.removeAll (removedIds newPools service)
    obtain ⟨pools, hstart, hstarted⟩ := hremoved.startAll coinTemplates newPools
      (service.toAdd newPools ++ service.restarted newPools)
    refine ⟨pools, ?_, ?_⟩
    · rw [sources_foldl_stopAndRemove] at hstart
      rw [reloadSteps, runSteps_append_of_eq hremove]
      exact hstart
    · rw [reloadPools_eq hempty]
      rw [foldl_removedIds] at hstarted
      exact hstarted

theorem runSteps_startup (configs : List PoolConfig) (s : PaidPools) :
    ∃ pools, runSteps step s (configs.map fun config => .start ⟨config, .application⟩) =
        some { s with pools := pools } ∧
      ∀ id, id ∈ pools.keys ↔ id ∈ s.pools.keys ∨ id ∈ configs.map PoolConfig.id := by
  induction configs generalizing s with
  | nil => exact ⟨s.pools, rfl, by simp⟩
  | cons config configs ih =>
      obtain ⟨pools, hrun, hkeys⟩ :=
        ih { s with pools := s.pools.set config.id ⟨config, .application⟩ }
      refine ⟨pools, ?_, ?_⟩
      · rw [List.map_cons, runSteps_cons]
        exact hrun
      · intro id
        rw [hkeys, Dictionary.mem_keys_set, List.map_cons, List.mem_cons]
        tauto

/-- The registry of the program that has started. -/
theorem mirrors_startup {clusterConfig : ClusterConfig}
    (h : startup coinTemplates clusterConfig = some service) :
    ∃ s, runSteps step initial (startupSteps service.clusterPools) = some s ∧
      Mirrors s service := by
  obtain ⟨pools, -, h⟩ := Option.bind_eq_some_iff.mp h
  obtain ⟨_, -, h⟩ := Option.bind_eq_some_iff.mp h
  obtain rfl := Option.some_inj.mp h
  obtain ⟨registry, hrun, hkeys⟩ := runSteps_startup (pools.filter PoolConfig.enabled) initial
  refine ⟨_, hrun, ?_⟩
  intro id
  rw [hkeys]
  simp [initial, Dictionary.keys]

/-! ### Reloads that keep what is paid -/

theorem allows_remove_iff (ids : List String) :
    Allows step Keeps s (ids.map .remove) ↔
      ∀ id ∈ ids, ∀ pool, s.attached.find? id = some pool → ¬pool.pays :=
  allows_map_iff (fun s id => { s with pools := s.pools.remove id }) (fun _ _ => rfl)
    (fun _ _ _ => Iff.rfl) s ids

theorem allows_start_iff (pools : List MiningPool) :
    Allows step Keeps s (pools.map .start) ↔
      ∀ pool ∈ pools, ∀ old, s.attached.find? pool.config.id = some old → old.pays →
        old = pool :=
  allows_map_iff (fun s pool => { s with pools := s.pools.set pool.config.id pool })
    (fun _ _ => rfl) (fun _ _ _ => Iff.rfl) s pools

theorem id_of_mem_startedPools {sources : ℕ} {ids : List String} {pool : MiningPool}
    (h : pool ∈ startedPools coinTemplates newPools sources ids) : pool.config.id ∈ ids := by
  induction ids generalizing sources with
  | nil => cases h
  | cons id ids ih =>
      rw [startedPools] at h
      cases hsection : sectionOf newPools id with
      | none =>
          rw [hsection] at h
          exact List.mem_cons_of_mem _ (ih h)
      | some config =>
          rw [hsection] at h
          dsimp only at h
          split at h
          · obtain rfl | h := List.mem_cons.mp h
            · exact List.mem_cons.mpr (Or.inl (id_of_sectionOf hsection))
            · exact List.mem_cons_of_mem _ (ih h)
          · exact List.mem_cons_of_mem _ (ih h)

/-- A reload keeps what is paid when it removes no attached pool that has payments. -/
theorem allows_reloadSteps_iff (hwell : WellFormed s) (hfollows : Follows s)
    (hmirrors : Mirrors s service) :
    Allows step Keeps s (reloadSteps coinTemplates newPools service) ↔
      ∀ id ∈ removedIds newPools service, ∀ pool, s.attached.find? id = some pool → ¬pool.pays := by
  rw [reloadSteps, allows_append, allows_remove_iff, and_iff_left_iff_imp]
  intro hremoved t ht
  obtain ⟨pools, hrun, -⟩ := hmirrors.removeAll (removedIds newPools service)
  obtain rfl := Option.some_inj.mp (hrun.symm.trans ht)
  rw [allows_start_iff]
  intro pool hpool old hold hpays
  obtain hadd | hrestart := List.mem_append.mp (id_of_mem_startedPools hpool)
  · have hid : old.config.id = pool.config.id := hwell.id_eq _ old hold
    have hlive := hfollows old (by rw [hid]; exact hold) hpays
    have hmem : pool.config.id ∈ s.pools.keys := Dictionary.exists_find?_iff.mp ⟨old, hid ▸ hlive⟩
    exact absurd ((hmirrors _).mp hmem) (mem_toAdd.mp hadd).2
  · exact absurd hpays (hremoved _ (List.mem_append_right _ hrestart) old hold)

end mirrors

end PaidPools

end Miningcore.Configuration
