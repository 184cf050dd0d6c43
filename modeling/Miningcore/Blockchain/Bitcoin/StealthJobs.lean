import Miningcore.Blockchain.Bitcoin.BitcoinJobManager
import Miningcore.Blockchain.Bitcoin.CoinbaseConservation

/-!
# Jobs that do not pay the pool

A job pays the pool or the address of a fetched table, and it is marked when it
does the latter. The accepted block of a marked job is not returned as a block.
-/

namespace Miningcore.Bitcoin

open Foundation

variable {Money : Type}

/-- The script of the last output, which gets what the sections leave. -/
def Job.destination (job : Job Money) : Option Script :=
  job.outputs.getLast?.map TxOut.scriptPubKey

/-- The table of an answer. -/
def Fetch.addresses : Fetch → List RemoteAddresses
  | .failed => []
  | .answered addresses => addresses.toList

/-- The table an event may load. -/
def Event.fetched : Event → List RemoteAddresses
  | .loadElsewhere _ fetch => fetch.addresses
  | .configure _ fetch _ => fetch.addresses
  | .beginUpdate _ _ fetch _ => fetch.addresses
  | _ => []

/-- A manager before it is configured, with what the process and the file already hold. -/
def JobManager.start (remoteAddresses : RemoteAddresses) (lastAddressFetch : Nat)
    (stateFile : StateFile) : JobManager Money :=
  { remoteAddresses, lastAddressFetch, stateFile }

namespace JobManagerConfig

variable (config : JobManagerConfig Money)

/-- A destination that a table has for the coin. -/
def IsRemote (tables : List RemoteAddresses) (destination : Script) : Prop :=
  ∃ addresses ∈ tables, config.remoteDestination addresses = some destination

/-- A job pays the pool, or is marked and pays the destination of a table. -/
def Pays (tables : List RemoteAddresses) (job : Job Money) : Prop :=
  job.isStealth = false ∧ job.destination = some config.poolAddressDestination ∨
    job.isStealth = true ∧
      ∃ destination, config.IsRemote tables destination ∧ job.destination = some destination

/-- Every coinbase pays the pool and every block that was accepted is returned as one. -/
def AllThePools (manager : JobManager Money) : Prop :=
  (∀ job ∈ manager.jobs, job.destination = some config.poolAddressDestination) ∧
    ∀ returned ∈ manager.returned, returned.accepted = true →
      returned.share.isBlockCandidate = true

/-- What holds along every run. -/
structure Alternates (tables : List RemoteAddresses) (manager : JobManager Money) : Prop where
  table : manager.remoteAddresses ∈ tables
  external : ∀ destination, manager.externalAddressDestination = some destination →
    config.IsRemote tables destination
  jobs : ∀ job ∈ manager.jobs, config.Pays tables job
  candidates : ∀ candidate ∈ manager.candidates, candidate.1 ∈ manager.jobs
  returned : ∀ returned ∈ manager.returned, returned.job ∈ manager.jobs ∧
    (returned.accepted = true →
      (returned.share.isBlockCandidate = true ↔ returned.job.isStealth = false))

end JobManagerConfig

namespace JobManager

/-- The managers differ at most in the mode, its file, the clock and the updates in flight. -/
structure SameWork (manager manager' : JobManager Money) : Prop where
  remoteAddresses : manager'.remoteAddresses = manager.remoteAddresses
  externalAddressDestination :
    manager'.externalAddressDestination = manager.externalAddressDestination
  jobs : manager'.jobs = manager.jobs
  candidates : manager'.candidates = manager.candidates
  returned : manager'.returned = manager.returned

theorem SameWork.refl (manager : JobManager Money) : SameWork manager manager :=
  ⟨rfl, rfl, rfl, rfl, rfl⟩

theorem sameWork_updates (manager : JobManager Money) (updates : List Bool) :
    SameWork manager { manager with updates } := ⟨rfl, rfl, rfl, rfl, rfl⟩

theorem sameWork_setExternal (isExternal saves : Bool) (manager : JobManager Money) :
    SameWork manager (manager.setExternal isExternal saves) := by
  rw [setExternal, saveZigZagState]
  split <;> exact ⟨rfl, rfl, rfl, rfl, rfl⟩

theorem sameWork_loadZigZagState (saves : Bool) (manager : JobManager Money) :
    SameWork manager (manager.loadZigZagState saves) := by
  rw [loadZigZagState]
  split
  · exact ⟨rfl, rfl, rfl, rfl, rfl⟩
  · exact SameWork.refl manager
  · exact sameWork_setExternal true saves manager

end JobManager

namespace JobManagerConfig

variable {config : JobManagerConfig Money} {tables : List RemoteAddresses}
  {manager manager' : JobManager Money}

open JobManager

theorem Alternates.congr (h : config.Alternates tables manager)
    (hsame : SameWork manager manager') :
    config.Alternates tables manager' := by
  obtain ⟨htable, hexternal, hjobs, hcandidates, hreturned⟩ := hsame
  constructor
  · rw [htable]
    exact h.table
  · rw [hexternal]
    exact h.external
  · rw [hjobs]
    exact h.jobs
  · rw [hjobs, hcandidates]
    exact h.candidates
  · rw [hjobs, hreturned]
    exact h.returned

theorem Alternates.loadRemoteAddresses (h : config.Alternates tables manager) {now : Nat}
    {fetch : Fetch} (hfetch : ∀ addresses ∈ fetch.addresses, addresses ∈ tables) :
    config.Alternates tables (manager.loadRemoteAddresses now fetch) := by
  unfold JobManager.loadRemoteAddresses
  split
  · exact h
  · split
    · exact h
    · exact h.congr ⟨rfl, rfl, rfl, rfl, rfl⟩
    · rename_i addresses
      exact ⟨hfetch addresses (List.mem_singleton.mpr rfl), h.external, h.jobs, h.candidates,
        h.returned⟩

theorem Alternates.checkZipZagStatus (h : config.Alternates tables manager) (saves : Bool) :
    config.Alternates tables (config.checkZipZagStatus saves manager) := by
  rw [JobManagerConfig.checkZipZagStatus]
  split
  · exact h
  · rename_i destination hdestination
    have hexternal : config.Alternates tables
        { manager with externalAddressDestination := some destination } := by
      refine ⟨h.table, ?_, h.jobs, h.candidates, h.returned⟩
      intro other hother
      obtain rfl := Option.some.inj hother
      exact ⟨manager.remoteAddresses, h.table, hdestination⟩
    dsimp only
    split
    · exact hexternal
    · have hloaded := sameWork_loadZigZagState saves
        { manager with externalAddressDestination := some destination }
      exact (hexternal.congr hloaded).congr ⟨rfl, rfl, rfl, rfl, rfl⟩

/-- The last output of a job goes to the address that was selected for it. -/
theorem pays_createJob (h : config.Alternates tables manager) {blockTemplate : BlockTemplate}
    {job : Job Money} (hjob : config.createJob manager blockTemplate = some job) :
    config.Pays tables job := by
  rw [createJob] at hjob
  split at hjob
  · obtain ⟨destination, hselected, hjob⟩ := Option.bind_eq_some_iff.mp hjob
    obtain ⟨coinbaseJob, hinit, hjob⟩ := Option.bind_eq_some_iff.mp hjob
    obtain ⟨outputs, houtputs, rfl⟩ := Option.map_eq_some_iff.mp hjob
    have hlast : (outputs.getLast?.map TxOut.scriptPubKey) = some destination := by
      rw [getLast?_createOutputTransaction coinbaseJob houtputs, poolAddressDestination_init hinit]
    rw [selectedAddress] at hselected
    cases hmode : manager.isZigZaggable && manager.nextBlockIsExternal with
    | false =>
        rw [hmode] at hselected
        obtain rfl := Option.some.inj hselected
        exact Or.inl ⟨rfl, hlast⟩
    | true =>
        rw [hmode] at hselected
        exact Or.inr ⟨rfl, destination, h.external destination hselected, hlast⟩
  · cases hjob

/-- A step that only makes a job. -/
theorem Alternates.updateJob (h : config.Alternates tables manager) (forceUpdate : Bool)
    (reply : RpcReply BlockTemplate) :
    config.Alternates tables (config.updateJob forceUpdate reply manager) := by
  rw [JobManagerConfig.updateJob]
  split
  · exact h
  · split
    · split
      · exact h
      · rename_i job hjob
        obtain ⟨blockTemplate, _, hjob⟩ := Option.bind_eq_some_iff.mp hjob
        refine ⟨h.table, h.external, ?_, ?_, ?_⟩
        · intro other hother
          obtain hother | rfl := List.mem_append.mp hother |>.imp_right List.mem_singleton.mp
          · exact h.jobs other hother
          · exact pays_createJob h hjob
        · intro candidate hcandidate
          exact List.mem_append_left _ (h.candidates candidate hcandidate)
        · intro returned hreturned
          obtain ⟨hjob, hcandidate⟩ := h.returned returned hreturned
          exact ⟨List.mem_append_left _ hjob, hcandidate⟩
    · exact h

/-- A returned share of one of the jobs. -/
theorem Alternates.return (h : config.Alternates tables manager) {returned : ReturnedShare Money}
    (hjob : returned.job ∈ manager.jobs) (hcandidate : returned.accepted = true →
      (returned.share.isBlockCandidate = true ↔ returned.job.isStealth = false)) :
    config.Alternates tables
      { manager with returned := manager.returned ++ [returned] } := by
  refine ⟨h.table, h.external, h.jobs, h.candidates, ?_⟩
  intro other hother
  obtain hother | rfl := List.mem_append.mp hother |>.imp_right List.mem_singleton.mp
  · exact h.returned other hother
  · exact ⟨hjob, hcandidate⟩

theorem sameWork_acceptShare (job : Job Money) (share : MinedShare) (response : SubmitResult)
    (saves : Bool) (manager : JobManager Money) :
    SameWork manager (acceptShare job share response saves manager).1 := by
  rw [acceptShare]
  split
  · split
    · exact sameWork_setExternal false saves manager
    · dsimp only
      split
      · exact sameWork_setExternal true saves manager
      · exact SameWork.refl manager
  · exact SameWork.refl manager

/-- An accepted block stays a block unless its job is marked. -/
theorem isBlockCandidate_acceptShare (job : Job Money) (share : MinedShare)
    {response : SubmitResult} (saves : Bool) (manager : JobManager Money)
    (haccepted : response.accepted = true) :
    (acceptShare job share response saves manager).2.isBlockCandidate = true ↔
      job.isStealth = false := by
  rw [acceptShare, if_pos haccepted]
  cases hstealth : job.isStealth with
  | false => simp
  | true => simp

theorem Alternates.finishSubmit (h : config.Alternates tables manager) {job : Job Money}
    (hjob : job ∈ manager.jobs) (share : MinedShare)
    (replies : RpcReply String × RpcReply DaemonResponses.Block) (saves : Bool) :
    config.Alternates tables (JobManagerConfig.finishSubmit job share replies saves manager) := by
  rw [JobManagerConfig.finishSubmit]
  split
  · exact h
  · rename_i response _
    have hsame := sameWork_acceptShare job share response saves manager
    apply (h.congr hsame).return
    · rw [hsame.jobs]
      exact hjob
    · exact isBlockCandidate_acceptShare job share saves manager

/-- One event. -/
theorem Alternates.step (h : config.Alternates tables manager) {event : Event}
    (hfetched : ∀ addresses ∈ event.fetched, addresses ∈ tables) :
    config.Alternates tables (config.step manager event) := by
  cases event with
  | loadElsewhere now fetch =>
      rw [JobManagerConfig.step]
      exact h.loadRemoteAddresses hfetched
  | configure now fetch saves =>
      rw [JobManagerConfig.step]
      apply Alternates.checkZipZagStatus
      exact h.loadRemoteAddresses hfetched
  | beginUpdate forceUpdate now fetch saves =>
      have hloaded : config.Alternates tables (manager.loadRemoteAddresses now fetch) :=
        h.loadRemoteAddresses hfetched
      rw [JobManagerConfig.step]
      exact (hloaded.checkZipZagStatus saves).congr (sameWork_updates _ _)
  | finishUpdate update reply =>
      rw [JobManagerConfig.step]
      split
      · exact h
      · have hupdates : config.Alternates tables
            { manager with updates := manager.updates.eraseIdx update } :=
          h.congr (sameWork_updates manager _)
        cases reply with
        | none => exact hupdates
        | some reply => exact hupdates.updateJob _ reply
  | submitShare job share =>
      rw [JobManagerConfig.step]
      split
      · exact h
      · rename_i job hjob
        have hmem := List.mem_of_getElem? hjob
        split
        · refine ⟨h.table, h.external, h.jobs, ?_, h.returned⟩
          intro candidate hcandidate
          obtain hcandidate | rfl :=
            List.mem_append.mp hcandidate |>.imp_right List.mem_singleton.mp
          · exact h.candidates candidate hcandidate
          · exact hmem
        · apply h.return hmem
          intro haccepted
          cases haccepted
  | finishSubmit candidate replies saves =>
      rw [JobManagerConfig.step]
      split
      · exact h
      · rename_i job share hcandidate
        have hrest : config.Alternates tables
            { manager with candidates := manager.candidates.eraseIdx candidate } := by
          refine ⟨h.table, h.external, h.jobs, ?_, h.returned⟩
          intro other hother
          exact h.candidates other (List.mem_of_mem_eraseIdx hother)
        cases replies with
        | none => exact hrest
        | some replies =>
            exact hrest.finishSubmit (h.candidates _ (List.mem_of_getElem? hcandidate)) share
              replies saves

theorem Alternates.run (h : config.Alternates tables manager) {events : List Event}
    (hfetched : ∀ addresses ∈ events.flatMap Event.fetched, addresses ∈ tables) :
    config.Alternates tables (config.run manager events) := by
  induction events generalizing manager with
  | nil => exact h
  | cons event events ih =>
      rw [List.flatMap_cons] at hfetched
      rw [JobManagerConfig.run, List.foldl_cons, ← JobManagerConfig.run]
      apply ih
      · exact h.step fun addresses haddresses =>
          hfetched addresses (List.mem_append_left _ haddresses)
      · exact fun addresses haddresses =>
          hfetched addresses (List.mem_append_right _ haddresses)

theorem alternates_start {remoteAddresses : RemoteAddresses} (lastAddressFetch : Nat)
    (stateFile : StateFile) (h : remoteAddresses ∈ tables) :
    config.Alternates tables (start remoteAddresses lastAddressFetch stateFile) where
  table := h
  external := by
    rintro destination ⟨⟩
  jobs := by
    rintro job ⟨⟩
  candidates := by
    rintro candidate ⟨⟩
  returned := by
    rintro returned ⟨⟩

/-- Jobs pay the pool unless they are marked, marked jobs pay an address that was fetched for the
coin, and the accepted blocks that are returned as blocks are those of the other jobs. Without
such an address every block is the pool's. -/
theorem alternates_run (config : JobManagerConfig Money) (remoteAddresses : RemoteAddresses)
    (lastAddressFetch : Nat) (stateFile : StateFile) (events : List Event) :
    let tables := remoteAddresses :: events.flatMap Event.fetched
    let manager := config.run (start remoteAddresses lastAddressFetch stateFile) events
    (∀ job ∈ manager.jobs, config.Pays tables job) ∧
      (∀ returned ∈ manager.returned, returned.job ∈ manager.jobs ∧
        (returned.accepted = true →
          (returned.share.isBlockCandidate = true ↔ returned.job.isStealth = false))) ∧
      ((∀ addresses ∈ tables, config.remoteDestination addresses = none) →
        config.AllThePools manager) := by
  intro tables manager
  have hstart : config.Alternates tables (start remoteAddresses lastAddressFetch stateFile) :=
    alternates_start lastAddressFetch stateFile List.mem_cons_self
  have h : config.Alternates tables manager :=
    hstart.run fun addresses haddresses => List.mem_cons_of_mem _ haddresses
  refine ⟨h.jobs, h.returned, fun hnone => ?_⟩
  have hpool : ∀ job ∈ manager.jobs,
      job.isStealth = false ∧ job.destination = some config.poolAddressDestination := by
    intro job hjob
    obtain hpool | ⟨_, destination, ⟨addresses, haddresses, hremote⟩, _⟩ := h.jobs job hjob
    · exact hpool
    · rw [hnone addresses haddresses] at hremote
      cases hremote
  refine ⟨fun job hjob => (hpool job hjob).2, fun returned hreturned haccepted => ?_⟩
  obtain ⟨hjob, hcandidate⟩ := h.returned returned hreturned
  exact (hcandidate haccepted).mpr (hpool _ hjob).1

/-! ### The first block after the table was fetched -/

def plainConfig : JobManagerConfig Int64 where
  money := checkedMoney
  coin := {}
  symbol := "BTC"
  poolAddressDestination := [1]
  addressToDestination _ := none
  mainAddressToDestination address := if address = "fetched" then some [2] else none
  bcashAddressToDestination _ := none
  canInit _ := true

/-- The table is fetched, a job is made, and the daemon takes a block of the job. -/
def firstBlock : List Event :=
  [.configure oneHour (.answered (some [("BTC", "fetched")])) true,
    .beginUpdate false oneHour .failed true,
    .finishUpdate 0 (some
      { response := some { previousBlockhash := "a0", height := 7, coinbaseValue := 5000 } }),
    .submitShare 0
      { blockHeight := 7, difficulty := 1, isBlockCandidate := true, blockHash := some "b0" },
    .finishSubmit 0 (some ({}, { response := some ⟨some "b0", some ["c0"]⟩ })) true]

theorem firstBlock_not_the_pools :
    let manager := plainConfig.run (start [] 0 .absent) firstBlock
    ¬ (∀ job ∈ manager.jobs, job.destination = some plainConfig.poolAddressDestination) ∧
      ¬ (∀ returned ∈ manager.returned, returned.accepted = true →
        returned.share.isBlockCandidate = true) := by
  decide +kernel

end JobManagerConfig

end Miningcore.Bitcoin
