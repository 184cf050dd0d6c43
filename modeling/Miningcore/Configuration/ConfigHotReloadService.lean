import Miningcore.Configuration.ClusterConfig
import Mathlib.Data.List.Dedup

/-!
# Hot reload of the configuration

Pools are started with the program, all of them with the token of the application, and by the
reload of a changed configuration file, each with a token of its own. The registry of pools knows
both kinds, the table of tasks those that a reload started.

## Implementation notes

A pool whose token is cancelled stops, so the wait for its task is left out. The templates of coins
that are loaded with a file are given by the coins they define.
-/

namespace Miningcore.Configuration

open Foundation

/-! ### The comparison of two sections -/

def nullable {α : Type} (token : α → JToken) : Option α → JToken
  | none => JToken.null
  | some a => token a

def stringToken (s : String) : JToken := .scalar (.string s)

def booleanToken (b : Bool) : JToken := .scalar (.boolean b)

def integerToken (i : ℤ) : JToken := .scalar (.number (.ofInt i))

def decimalToken (d : Decimal) : JToken := .scalar (.number (.ofDecimal d))

def extraMembers (extra : Option (Dictionary String JToken)) : List (String × JToken) :=
  (extra.map Dictionary.entries).getD []

def PoolPaymentProcessingConfig.token (config : PoolPaymentProcessingConfig) : JToken :=
  .object ([("Enabled", booleanToken config.enabled),
    ("MinimumPayment", decimalToken config.minimumPayment),
    ("PayoutScheme", integerToken config.payoutScheme.number),
    ("PayoutSchemeConfig", config.payoutSchemeConfig)] ++ extraMembers config.extra)

def isCommentKey (key : String) : Bool := key.startsWith "_"

def stripCommentKeys (extra : Option (Dictionary String JToken)) :
    Option (List (String × JToken)) :=
  extra.map fun entries => entries.entries.filter fun entry => !isCommentKey entry.1

def daemonPorts (p : PoolConfig) : Option (List ℤ) :=
  p.daemons.map fun daemons => daemons.map DaemonEndpointConfig.port

/-- The keys in ascending order. -/
def stratumPorts (p : PoolConfig) : Option (List ℤ) :=
  p.ports.map fun ports => ports.keys.mergeSort

def normalize (p : PoolConfig) : JToken :=
  .object
    [("Coin", nullable stringToken p.coin),
    ("Address", nullable stringToken p.address),
    ("BlockRefreshInterval", integerToken p.blockRefreshInterval),
    ("JobRebroadcastTimeout", integerToken p.jobRebroadcastTimeout),
    ("ClientConnectionTimeout", integerToken p.clientConnectionTimeout),
    ("EnableInternalStratum", nullable booleanToken p.enableInternalStratum),
    ("PaymentProcessing", nullable PoolPaymentProcessingConfig.token p.paymentProcessing),
    ("ExtraClean", nullable JsonDocument.object (stripCommentKeys p.extra)),
    ("daemonPorts", nullable (fun ports => .array (ports.map integerToken)) (daemonPorts p)),
    ("stratumPorts", nullable (fun ports => .array (ports.map integerToken)) (stratumPorts p))]

def poolConfigChanged (oldPool newPool : PoolConfig) : Bool :=
  serializeObject (normalize oldPool) != serializeObject (normalize newPool)

theorem poolConfigChanged_self (config : PoolConfig) : poolConfigChanged config config = false :=
  bne_self_eq_false _

/-! ### The pools that run -/

/-- What a pool runs until it is cancelled. -/
inductive StopToken where
  | application
  | source (number : ℕ)
deriving DecidableEq

structure PoolInstance where
  poolId : String
  token : StopToken
deriving DecidableEq

structure ConfigHotReloadService where
  /-- The pools that run. -/
  live : List PoolInstance
  /-- The ids of the registry. -/
  pools : List String
  poolTasks : List (String × ℕ)
  /-- How many sources of tokens have been made. -/
  sources : ℕ
  /-- The pools of the configuration that was applied last. -/
  clusterPools : List PoolConfig

namespace ConfigHotReloadService

/-- `Program.RunPool` for every pool that is enabled. -/
def startup (coinTemplates : List String) (clusterConfig : ClusterConfig) :
    Option ConfigHotReloadService := do
  let pools ← validateConfig clusterConfig
  let enabled := pools.filter PoolConfig.enabled
  guard (enabled.all fun config => config.coin.any coinTemplates.contains)
  return {
    live := enabled.map fun config => ⟨config.id, .application⟩
    pools := enabled.map PoolConfig.id
    poolTasks := []
    sources := 0
    clusterPools := pools }

def stopPoolAsync (service : ConfigHotReloadService) (id : String) : ConfigHotReloadService :=
  match service.poolTasks.lookup id with
  | none => service
  | some number =>
      { service with
        poolTasks := service.poolTasks.filter fun entry => entry.1 != id
        live := service.live.filter fun pool => pool.token != .source number }

def tryRemove (service : ConfigHotReloadService) (id : String) : ConfigHotReloadService :=
  { service with pools := service.pools.filter (· != id) }

def stopAndRemove (service : ConfigHotReloadService) (id : String) : ConfigHotReloadService :=
  (service.stopPoolAsync id).tryRemove id

/-- A pool of an unknown coin is not started; the error is logged. -/
def startPoolAsync (coinTemplates : List String) (service : ConfigHotReloadService)
    (poolConfig : PoolConfig) : ConfigHotReloadService :=
  if poolConfig.coin.any coinTemplates.contains then
    { service with
      live := service.live ++ [⟨poolConfig.id, .source service.sources⟩]
      pools := service.pools.filter (· != poolConfig.id) ++ [poolConfig.id]
      poolTasks := (poolConfig.id, service.sources) ::
        service.poolTasks.filter fun entry => entry.1 != poolConfig.id
      sources := service.sources + 1 }
  else service

/-- The first section of a pool. -/
def sectionOf (pools : List PoolConfig) (id : String) : Option PoolConfig :=
  pools.find? fun p => p.id == id

def enabledIds (pools : List PoolConfig) : List String :=
  ((pools.filter PoolConfig.enabled).map PoolConfig.id).dedup

theorem id_of_sectionOf {pools : List PoolConfig} {id : String} {config : PoolConfig}
    (h : sectionOf pools id = some config) : config.id = id := by
  have hid := List.find?_some h
  exact beq_iff_eq.mp hid

theorem mem_enabledIds {pools : List PoolConfig} {id : String} :
    id ∈ enabledIds pools ↔ ∃ config ∈ pools, config.enabled ∧ config.id = id := by
  simp [enabledIds, and_assoc]

theorem exists_sectionOf {pools : List PoolConfig} {id : String} (h : id ∈ enabledIds pools) :
    ∃ config, sectionOf pools id = some config := by
  obtain ⟨config, hmem, -, hid⟩ := mem_enabledIds.mp h
  have hsome : (sectionOf pools id).isSome :=
    List.find?_isSome.mpr ⟨config, hmem, beq_iff_eq.mpr hid⟩
  exact Option.isSome_iff_exists.mp hsome

theorem mem_enabledIds_of_sectionOf {pools : List PoolConfig} {id : String} {config : PoolConfig}
    (h : sectionOf pools id = some config) (henabled : config.enabled) : id ∈ enabledIds pools :=
  mem_enabledIds.mpr ⟨config, List.mem_of_find?_eq_some h, henabled, id_of_sectionOf h⟩

/-- A pool that runs is disabled, noted for a restart, or left alone. -/
def checkPool (newPools : List PoolConfig) (state : ConfigHotReloadService × List String)
    (id : String) : ConfigHotReloadService × List String :=
  match sectionOf state.1.clusterPools id, sectionOf newPools id with
  | some oldPool, some newPool =>
      if !newPool.enabled then (state.1.stopAndRemove id, state.2)
      else if poolConfigChanged oldPool newPool then (state.1, state.2 ++ [id])
      else state
  | _, _ => state

def addPool (coinTemplates : List String) (newPools : List PoolConfig)
    (service : ConfigHotReloadService) (id : String) : ConfigHotReloadService :=
  match sectionOf newPools id with
  | none => service
  | some poolConfig => service.startPoolAsync coinTemplates poolConfig

section lists

variable (service : ConfigHotReloadService) (newPools : List PoolConfig)

def toRemove : List String :=
  service.pools.filter fun id => !(enabledIds newPools).contains id

def toAdd : List String :=
  (enabledIds newPools).filter fun id => !service.pools.contains id

def toCheck : List String :=
  service.pools.filter fun id => (enabledIds newPools).contains id

end lists

def reloadPools (coinTemplates : List String) (newPools : List PoolConfig)
    (service : ConfigHotReloadService) : ConfigHotReloadService :=
  let toRemove := service.toRemove newPools
  let toAdd := service.toAdd newPools
  let toCheck := service.toCheck newPools
  if toRemove.isEmpty && toAdd.isEmpty && toCheck.isEmpty then service
  else
    let removed := toRemove.foldl stopAndRemove service
    let (checked, toRestart) := toCheck.foldl (checkPool newPools) (removed, [])
    let stopped := toRestart.foldl stopAndRemove checked
    let started := (toAdd ++ toRestart).foldl (addPool coinTemplates newPools) stopped
    { started with clusterPools := newPools }

/-- A pool is disabled when the first section of its id is. -/
def disables (oldPools newPools : List PoolConfig) (id : String) : Bool :=
  match sectionOf oldPools id, sectionOf newPools id with
  | some _, some newPool => !newPool.enabled
  | _, _ => false

def restarts (oldPools newPools : List PoolConfig) (id : String) : Bool :=
  match sectionOf oldPools id, sectionOf newPools id with
  | some oldPool, some newPool => newPool.enabled && poolConfigChanged oldPool newPool
  | _, _ => false

/-- The pools that a reload finds disabled. -/
def disabled (service : ConfigHotReloadService) (newPools : List PoolConfig) : List String :=
  (service.toCheck newPools).filter (disables service.clusterPools newPools)

/-- The pools that a reload stops in order to start them again. -/
def restarted (service : ConfigHotReloadService) (newPools : List PoolConfig) : List String :=
  (service.toCheck newPools).filter (restarts service.clusterPools newPools)

section lists

variable {service : ConfigHotReloadService} {newPools : List PoolConfig} {id : String}

theorem mem_toRemove :
    id ∈ service.toRemove newPools ↔ id ∈ service.pools ∧ id ∉ enabledIds newPools := by
  simp [toRemove]

theorem mem_toAdd :
    id ∈ service.toAdd newPools ↔ id ∈ enabledIds newPools ∧ id ∉ service.pools := by
  simp [toAdd]

theorem mem_toCheck :
    id ∈ service.toCheck newPools ↔ id ∈ service.pools ∧ id ∈ enabledIds newPools := by
  simp [toCheck]

theorem mem_disabled :
    id ∈ service.disabled newPools ↔
      (id ∈ service.pools ∧ id ∈ enabledIds newPools) ∧
        disables service.clusterPools newPools id := by
  rw [disabled, List.mem_filter, mem_toCheck]

theorem mem_restarted :
    id ∈ service.restarted newPools ↔
      (id ∈ service.pools ∧ id ∈ enabledIds newPools) ∧
        restarts service.clusterPools newPools id := by
  rw [restarted, List.mem_filter, mem_toCheck]

end lists

theorem clusterPools_stopAndRemove (service : ConfigHotReloadService) (id : String) :
    (service.stopAndRemove id).clusterPools = service.clusterPools := by
  rw [stopAndRemove, tryRemove, stopPoolAsync]
  split <;> rfl

theorem clusterPools_foldl_stopAndRemove (ids : List String) (service : ConfigHotReloadService) :
    (ids.foldl stopAndRemove service).clusterPools = service.clusterPools := by
  induction ids generalizing service with
  | nil => rfl
  | cons id ids ih => rw [List.foldl_cons, ih, clusterPools_stopAndRemove]

theorem checkPool_eq (newPools : List PoolConfig) (service : ConfigHotReloadService)
    (toRestart : List String) (id : String) :
    checkPool newPools (service, toRestart) id =
      (if disables service.clusterPools newPools id then service.stopAndRemove id else service,
        if restarts service.clusterPools newPools id then toRestart ++ [id] else toRestart) := by
  cases hold : sectionOf service.clusterPools id with
  | none => simp [checkPool, disables, restarts, hold]
  | some oldPool =>
      cases hnew : sectionOf newPools id with
      | none => simp [checkPool, disables, restarts, hold, hnew]
      | some newPool =>
          simp only [checkPool, disables, restarts, hold, hnew]
          cases newPool.enabled with
          | false => rfl
          | true =>
              simp only [Bool.not_true, Bool.true_and, Bool.false_eq_true, if_false]
              split <;> rfl

/-- The pools are checked against the configuration that was applied last. -/
theorem foldl_checkPool (newPools : List PoolConfig) (ids : List String)
    (service : ConfigHotReloadService) (toRestart : List String) :
    ids.foldl (checkPool newPools) (service, toRestart) =
      ((ids.filter (disables service.clusterPools newPools)).foldl stopAndRemove service,
        toRestart ++ ids.filter (restarts service.clusterPools newPools)) := by
  induction ids generalizing service toRestart with
  | nil => simp
  | cons id ids ih =>
      rw [List.foldl_cons, checkPool_eq, ih]
      have hsame : (if disables service.clusterPools newPools id then service.stopAndRemove id
          else service).clusterPools = service.clusterPools := by
        split
        · exact clusterPools_stopAndRemove _ _
        · rfl
      rw [hsame]
      by_cases hdisabled : disables service.clusterPools newPools id <;>
        by_cases hrestart : restarts service.clusterPools newPools id <;>
        simp [hdisabled, hrestart]

/-- A reload removes, disables, stops for a restart and starts, in this order. -/
theorem reloadPools_eq {coinTemplates : List String} {newPools : List PoolConfig}
    {service : ConfigHotReloadService}
    (h : ¬(service.pools = [] ∧ enabledIds newPools = [])) :
    reloadPools coinTemplates newPools service =
      let removed := (service.toRemove newPools).foldl stopAndRemove service
      let checked := (service.disabled newPools).foldl stopAndRemove removed
      let stopped := (service.restarted newPools).foldl stopAndRemove checked
      let started := (service.toAdd newPools ++ service.restarted newPools).foldl
        (addPool coinTemplates newPools) stopped
      { started with clusterPools := newPools } := by
  have hempty : ((service.toRemove newPools).isEmpty && (service.toAdd newPools).isEmpty &&
      (service.toCheck newPools).isEmpty) = false := by
    rw [Bool.eq_false_iff]
    intro hall
    simp only [Bool.and_eq_true, List.isEmpty_iff, List.eq_nil_iff_forall_not_mem, mem_toRemove,
      mem_toAdd, mem_toCheck] at hall
    obtain ⟨⟨hremove, hadd⟩, hcheck⟩ := hall
    have hpools : ∀ id, id ∉ service.pools := by
      intro id hid
      by_cases hnew : id ∈ enabledIds newPools
      · exact hcheck id ⟨hid, hnew⟩
      · exact hremove id ⟨hid, hnew⟩
    have hnew : ∀ id, id ∉ enabledIds newPools :=
      fun id hid => hadd id ⟨hid, hpools id⟩
    exact h ⟨List.eq_nil_iff_forall_not_mem.mpr hpools, List.eq_nil_iff_forall_not_mem.mpr hnew⟩
  rw [reloadPools]
  simp only [hempty, foldl_checkPool, clusterPools_foldl_stopAndRemove, List.nil_append,
    Bool.false_eq_true, if_false]
  rfl

/-- Without pools, before and in the file, nothing is done. -/
theorem reloadPools_of_empty {coinTemplates : List String} {newPools : List PoolConfig}
    {service : ConfigHotReloadService} (hpools : service.pools = [])
    (hnew : enabledIds newPools = []) : reloadPools coinTemplates newPools service = service := by
  simp [reloadPools, toRemove, toAdd, toCheck, hpools, hnew]

end ConfigHotReloadService

/-- What a reload finds. -/
structure ConfigFile where
  /-- The configuration, or none when the file cannot be read or holds no object. -/
  config : Option ClusterConfig
  /-- The coins of the templates, or none when they cannot be loaded. -/
  coinTemplates : Option (List String)

/-- The coins and the pools of a file that can be loaded. -/
def ConfigFile.loaded (file : ConfigFile) : Option (List String × List PoolConfig) := do
  let newConfig ← file.config
  let newPools ← newConfig.pools
  let coinTemplates ← file.coinTemplates
  return (coinTemplates, newPools)

namespace ConfigHotReloadService

def reloadPoolsAsync (service : ConfigHotReloadService) (file : ConfigFile) :
    ConfigHotReloadService :=
  match file.loaded with
  | none => service
  | some (coinTemplates, newPools) => service.reloadPools coinTemplates newPools

end ConfigHotReloadService

end Miningcore.Configuration
