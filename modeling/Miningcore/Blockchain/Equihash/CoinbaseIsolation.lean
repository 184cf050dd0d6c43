import Miningcore.Blockchain.Equihash.CoinbaseTransaction
import Miningcore.Foundation.Interleaving

/-!
# Coinbases of jobs that share static fields

The jobs of all pools of a process are initialised side by side. The expiry height is
static: a job stores its height there and reads it again for the stream, and a Veruscoin
job reads it without having stored it.

## Implementation notes

A coinbase is built in two steps, with the store at the end of the first. Other jobs
may come between. A job is referred to by a number.
-/

namespace Miningcore.Equihash

open Foundation Bitcoin

/-- How far the coinbase of a job is. -/
inductive BuildState where
  | ready
  | failed
  | writing (stream : Bytes)
  | built (coinbaseInitial : Bytes)
deriving DecidableEq

/-- The static fields, and the jobs that are initialised. -/
abbrev Process := Interleaved ℕ StaticFields BuildState

namespace CoinbaseJob

variable (library : TransactionLibrary) (job : CoinbaseJob)

/-- `BuildCoinbase` up to the fields of an upgrade. When PBaaS is active, the coinbase is that of
the daemon. -/
def beginCoinbase (fields : StaticFields) : BuildState :=
  match job.serializeStart library fields with
  | none => .failed
  | some stream =>
      let building := if job.hasUpgrade then .writing stream else .built stream
      if job.jobClass = .veruscoin then
        match job.isPBaaSActive with
        | none => .failed
        | some true =>
            match job.blockTemplate.coinbaseTx with
            | none => .failed
            | some data => .built (hexToByteArray data)
        | some false => building
      else building

/-- The expiry height is stored in front of the fields of an upgrade, but not for Veruscoin. -/
def storeExpiryHeight (fields : StaticFields) : StaticFields :=
  if job.jobClass = .veruscoin then fields
  else { fields with txExpiryHeight := job.blockTemplate.height }

/-- A step of `BuildCoinbase`. -/
def buildStep (fields : StaticFields) : BuildState → StaticFields × BuildState
  | .ready =>
      match job.beginCoinbase library fields with
      | .writing stream => (job.storeExpiryHeight fields, .writing stream)
      | build => (fields, build)
  | .writing stream => (fields, .built (stream ++ job.serializeUpgrade fields))
  | build => (fields, build)

end CoinbaseJob

namespace Process

variable (library : TransactionLibrary) (jobs : ℕ → CoinbaseJob)

/-- The process that no job has been initialised in. -/
def start : Process where
  store := {}
  threads _ := .ready

/-- The steps of a schedule. -/
def run (schedule : List ℕ) : Process :=
  Interleaved.run (fun number => (jobs number).buildStep library) start schedule

def coinbaseInitial (process : Process) (number : ℕ) : Option Bytes :=
  match process.threads number with
  | .built bytes => some bytes
  | _ => none

end Process

/-- The coinbase of a job in a process of its own. -/
def CoinbaseJob.coinbaseAlone (library : TransactionLibrary) (job : CoinbaseJob) : Option Bytes :=
  (Process.run library (fun _ => job) [0, 0]).coinbaseInitial 0

/-- The expiry height that a job has stored itself. Veruscoin stores none. -/
def CoinbaseJob.ownExpiryHeight (job : CoinbaseJob) : UInt32 :=
  if job.jobClass = .veruscoin then 0 else job.blockTemplate.height

/-- A job that reads the expiry height finds its own there. -/
def CoinbaseJob.MeetsOwnExpiryHeight (job : CoinbaseJob) (number : ℕ) (process : Process) : Prop :=
  ∀ stream, process.threads number = .writing stream →
    process.store.txExpiryHeight = job.ownExpiryHeight

/-- A job reads the expiry height as it has stored it. -/
def ReadsOwnExpiryHeight (library : TransactionLibrary) (jobs : ℕ → CoinbaseJob)
    (schedule : List ℕ) (number : ℕ) : Prop :=
  Interleaved.BeforeSteps (fun number => (jobs number).buildStep library)
    ((jobs number).MeetsOwnExpiryHeight number) Process.start schedule number

section steps

variable {library : TransactionLibrary} {job : CoinbaseJob} {jobs : ℕ → CoinbaseJob}
  {schedule : List ℕ} {number other : ℕ} {fields : StaticFields} {stream : Bytes}

/-- What all stores have left alone. -/
def StaticFields.OnlyExpiryHeight (fields : StaticFields) : Prop :=
  fields = { txExpiryHeight := fields.txExpiryHeight }

theorem StaticFields.onlyExpiryHeight_default : OnlyExpiryHeight {} := rfl

theorem CoinbaseJob.beginCoinbase_eq (h : fields.OnlyExpiryHeight) :
    job.beginCoinbase library fields = job.beginCoinbase library {} := by
  rw [h]
  rfl

theorem CoinbaseJob.onlyExpiryHeight_buildStep (h : fields.OnlyExpiryHeight) (build : BuildState) :
    (job.buildStep library fields build).1.OnlyExpiryHeight := by
  cases build with
  | ready =>
      rw [buildStep]
      split
      · rw [storeExpiryHeight]
        split
        · exact h
        · rw [h]
          rfl
      · exact h
  | failed => exact h
  | writing stream => exact h
  | built bytes => exact h

theorem Process.onlyExpiryHeight_run (schedule : List ℕ) :
    (run library jobs schedule).store.OnlyExpiryHeight := by
  rw [run]
  apply Interleaved.store_invariant (P := StaticFields.OnlyExpiryHeight)
  · intro number fields build h
    exact CoinbaseJob.onlyExpiryHeight_buildStep h build
  · exact StaticFields.onlyExpiryHeight_default

theorem CoinbaseJob.coinbaseAlone_eq :
    job.coinbaseAlone library =
      match job.beginCoinbase library {} with
      | .writing stream =>
          some (stream ++ job.serializeUpgrade { txExpiryHeight := job.ownExpiryHeight })
      | .built bytes => some bytes
      | _ => none := by
  have hrun : (Process.run library (fun _ => job) [0, 0]).threads 0 =
      (job.buildStep library (job.buildStep library {} .ready).1
        (job.buildStep library {} .ready).2).2 := rfl
  have hstore : job.storeExpiryHeight {} = { txExpiryHeight := job.ownExpiryHeight } := by
    rw [storeExpiryHeight, ownExpiryHeight]
    split
    · rfl
    · rfl
  rw [coinbaseAlone, Process.coinbaseInitial, hrun]
  dsimp only [buildStep]
  cases hbegin : job.beginCoinbase library {} with
  | ready => simp only [hbegin]
  | failed => rfl
  | writing stream =>
      dsimp only
      rw [hstore]
  | built bytes => rfl

/-- The bytes of an upgrade tell its expiry height. -/
theorem CoinbaseJob.serializeUpgrade_inj {first second : UInt32}
    (h : job.serializeUpgrade { txExpiryHeight := first } =
      job.serializeUpgrade { txExpiryHeight := second }) : first = second := by
  dsimp only [serializeUpgrade] at h
  have hbytes : littleEndian 4 first.toNat = littleEndian 4 second.toNat :=
    List.append_cancel_right (List.append_cancel_right h)
  apply UInt32.toNat_inj.mp
  exact littleEndian_inj first.toNat_lt second.toNat_lt hbytes

/-- What has come of a job, and whether it has read its own expiry height. -/
def IsBuilt (library : TransactionLibrary) (jobs : ℕ → CoinbaseJob) (schedule : List ℕ)
    (number : ℕ) : BuildState → Prop
  | .ready => ReadsOwnExpiryHeight library jobs schedule number
  | .failed => ReadsOwnExpiryHeight library jobs schedule number
  | .writing stream =>
      (jobs number).beginCoinbase library {} = .writing stream ∧
        ReadsOwnExpiryHeight library jobs schedule number
  | .built bytes => (jobs number).coinbaseAlone library = some bytes ↔
      ReadsOwnExpiryHeight library jobs schedule number

theorem isBuilt_run (schedule : List ℕ) (number : ℕ) :
    IsBuilt library jobs schedule number ((Process.run library jobs schedule).threads number) := by
  apply Interleaved.thread_induction
  · exact Interleaved.beforeSteps_nil
  · intro schedule other build hother ih
    have hreads : ReadsOwnExpiryHeight library jobs (schedule ++ [other]) number ↔
        ReadsOwnExpiryHeight library jobs schedule number :=
      Interleaved.beforeSteps_concat_of_ne hother
    cases build with
    | ready => exact hreads.mpr ih
    | failed => exact hreads.mpr ih
    | writing stream => exact ⟨ih.1, hreads.mpr ih.2⟩
    | built bytes => exact ih.trans hreads.symm
  · intro schedule ih
    have honly : (Process.run library jobs schedule).store.OnlyExpiryHeight :=
      Process.onlyExpiryHeight_run schedule
    have hreads : ReadsOwnExpiryHeight library jobs (schedule ++ [number]) number ↔
        ReadsOwnExpiryHeight library jobs schedule number ∧
          (jobs number).MeetsOwnExpiryHeight number (Process.run library jobs schedule) :=
      Interleaved.beforeSteps_concat_self
    rw [CoinbaseJob.MeetsOwnExpiryHeight] at hreads
    change IsBuilt library jobs schedule number
      ((Process.run library jobs schedule).threads number) at ih
    change IsBuilt library jobs (schedule ++ [number]) number
      ((jobs number).buildStep library (Process.run library jobs schedule).store
        ((Process.run library jobs schedule).threads number)).2
    generalize (Process.run library jobs schedule).store = fields at *
    cases hbuild : (Process.run library jobs schedule).threads number with
    | ready =>
        rw [hbuild] at ih hreads
        have hready : ReadsOwnExpiryHeight library jobs (schedule ++ [number]) number :=
          hreads.mpr ⟨ih, fun stream heq => by cases heq⟩
        rw [CoinbaseJob.buildStep, CoinbaseJob.beginCoinbase_eq honly]
        cases hbegin : (jobs number).beginCoinbase library {} with
        | ready => exact hready
        | failed => exact hready
        | writing stream => exact ⟨hbegin, hready⟩
        | built bytes =>
            refine iff_of_true ?_ hready
            rw [CoinbaseJob.coinbaseAlone_eq, hbegin]
    | failed =>
        rw [hbuild] at ih hreads
        exact hreads.mpr ⟨ih, fun stream heq => by cases heq⟩
    | writing stream =>
        rw [hbuild] at ih hreads
        obtain ⟨hbegin, hbefore⟩ := ih
        rw [CoinbaseJob.buildStep, IsBuilt, CoinbaseJob.coinbaseAlone_eq, hbegin, hreads]
        dsimp only
        rw [Option.some.injEq, List.append_cancel_left_eq, honly]
        constructor
        · intro hbytes
          exact ⟨hbefore, fun _ _ => (CoinbaseJob.serializeUpgrade_inj hbytes).symm⟩
        · rintro ⟨-, hown⟩
          rw [hown stream rfl]
    | built bytes =>
        rw [hbuild] at ih hreads
        refine ih.trans (Iff.trans ?_ hreads.symm)
        exact (and_iff_left fun stream heq => by cases heq).symm

theorem coinbaseAlone_iff_readsOwn (schedule : List ℕ) (number : ℕ) :
    (∀ bytes, (Process.run library jobs schedule).coinbaseInitial number = some bytes →
      (jobs number).coinbaseAlone library = some bytes) ↔
        ReadsOwnExpiryHeight library jobs schedule number := by
  have hbuilt := @isBuilt_run library jobs schedule number
  rw [Process.coinbaseInitial]
  cases hbuild : (Process.run library jobs schedule).threads number with
  | ready =>
      rw [hbuild] at hbuilt
      exact iff_of_true (fun _ heq => by cases heq) hbuilt
  | failed =>
      rw [hbuild] at hbuilt
      exact iff_of_true (fun _ heq => by cases heq) hbuilt
  | writing stream =>
      rw [hbuild] at hbuilt
      exact iff_of_true (fun _ heq => by cases heq) hbuilt.2
  | built bytes =>
      rw [hbuild] at hbuilt
      refine Iff.trans ?_ hbuilt
      exact ⟨fun h => h bytes rfl, fun h _ heq => Option.some.inj heq ▸ h⟩

end steps

namespace CoinbaseJob

variable (library : TransactionLibrary) (job : CoinbaseJob)

/-- A job whose coinbase has the fields of an upgrade, written by the job itself. -/
def SerializesUpgrade : Prop :=
  (job.createOutputTransaction library).isSome ∧ job.hasUpgrade = true ∧
    (job.jobClass = .veruscoin → job.isPBaaSActive = some false)

variable {library job}

theorem serializesUpgrade_iff :
    job.SerializesUpgrade library ↔ ∃ stream, job.beginCoinbase library {} = .writing stream := by
  rw [SerializesUpgrade, beginCoinbase, serializeStart]
  cases job.createOutputTransaction library with
  | none => simp
  | some outputs =>
      cases hupgrade : job.hasUpgrade with
      | false =>
          simp only [Option.bind_eq_bind, Option.bind_some, Bool.false_eq_true, if_false]
          split
          · split
            · simp
            · split
              · simp
              · simp
            · simp
          · simp
      | true =>
          simp only [Option.bind_eq_bind, Option.bind_some, if_true]
          split
          · rename_i hclass
            cases job.isPBaaSActive with
            | none => simp [hclass]
            | some active =>
                cases active with
                | false => simp
                | true =>
                    cases job.blockTemplate.coinbaseTx with
                    | none => simp [hclass]
                    | some data => simp [hclass]
          · rename_i hclass
            simp [hclass]

/-- A job of another pool that stores a height. -/
def storing (height : UInt32) : CoinbaseJob where
  jobClass := .equihash
  blockTemplate := { height, coinbaseValue := 0 }
  networkParams :=
    { saplingActivationHeight := some 1
      saplingTxVersion := some 4
      saplingTxVersionGroupId := some 2301567109 }
  poolAddressDestination := []

theorem serializesUpgrade_storing (library : TransactionLibrary) {height : UInt32}
    (h : 1 ≤ height) :
    (storing height).SerializesUpgrade library := by
  have hmoney : money 0 = some 0 := by decide +kernel
  refine ⟨?_, ?_, fun hclass => by cases hclass⟩
  · simp [createOutputTransaction, blockReward, createOutputs, rewardFees, hmoney, storing]
  simp [hasUpgrade, isOverwinterActive, isSaplingActive, EquihashNetworkParams.isSaplingActive,
    EquihashNetworkParams.isOverwinterActive, EquihashNetworkParams.isActive, storing, h]

/-- A job that stands between the steps of another one leaves it the height that it stores. -/
theorem coinbaseInitial_between {stream stream' : Bytes} {job' : CoinbaseJob}
    (h : job.beginCoinbase library {} = .writing stream)
    (h' : job'.beginCoinbase library {} = .writing stream') (hclass : job'.jobClass = .equihash) :
    (Process.run library (fun number => if number = 0 then job else job') [0, 1, 0]).coinbaseInitial
        0 = some (stream ++
          job.serializeUpgrade { txExpiryHeight := job'.blockTemplate.height }) := by
  let jobs : ℕ → CoinbaseJob := fun number => if number = 0 then job else job'
  have hrun : (Process.run library jobs [0, 1, 0]).threads 0 =
      (job.buildStep library
        (job'.buildStep library (job.buildStep library {} .ready).1 .ready).1
        (job.buildStep library {} .ready).2).2 := rfl
  have honly : (job.buildStep library {} .ready).1.OnlyExpiryHeight :=
    onlyExpiryHeight_buildStep StaticFields.onlyExpiryHeight_default _
  have hstored : (job'.buildStep library (job.buildStep library {} .ready).1 .ready).1 =
      { txExpiryHeight := job'.blockTemplate.height } := by
    rw [buildStep, beginCoinbase_eq honly, h']
    dsimp only
    rw [storeExpiryHeight, hclass, honly]
    rfl
  have hwriting : (job.buildStep library {} .ready).2 = .writing stream := by
    rw [buildStep, h]
  change (Process.run library jobs [0, 1, 0]).coinbaseInitial 0 = _
  rw [Process.coinbaseInitial, hrun, hstored, hwriting]
  rfl

end CoinbaseJob

/-- A coinbase is that of its job alone in just the runs in which the job reads its own expiry
height, and in all of them if it has no upgrade to serialize. -/
theorem coinbase_isolated_iff (library : TransactionLibrary) (job : CoinbaseJob) :
    (∀ jobs schedule number, jobs number = job →
      ((∀ bytes, (Process.run library jobs schedule).coinbaseInitial number = some bytes →
          job.coinbaseAlone library = some bytes) ↔
        ReadsOwnExpiryHeight library jobs schedule number)) ∧
    ((∀ jobs schedule number jobs' schedule' number', jobs number = job → jobs' number' = job →
        ∀ bytes bytes', (Process.run library jobs schedule).coinbaseInitial number = some bytes →
          (Process.run library jobs' schedule').coinbaseInitial number' = some bytes' →
            bytes = bytes') ↔
      ¬ job.SerializesUpgrade library) := by
  constructor
  · rintro jobs schedule number rfl
    exact coinbaseAlone_iff_readsOwn schedule number
  constructor
  · -- another job of another height comes between the two steps
    intro hsame hserializes
    obtain ⟨stream, hbegin⟩ := CoinbaseJob.serializesUpgrade_iff.mp hserializes
    have hdiffer : ∃ height : UInt32, 1 ≤ height ∧ height ≠ job.ownExpiryHeight := by
      by_cases hone : job.ownExpiryHeight = 1
      · exact ⟨2, by decide, by rw [hone]; decide⟩
      · exact ⟨1, by decide, Ne.symm hone⟩
    obtain ⟨height, hpos, hne⟩ := hdiffer
    obtain ⟨stream', hbegin'⟩ := CoinbaseJob.serializesUpgrade_iff.mp
      (CoinbaseJob.serializesUpgrade_storing library hpos)
    have halone : job.coinbaseAlone library =
        some (stream ++ job.serializeUpgrade { txExpiryHeight := job.ownExpiryHeight }) := by
      rw [CoinbaseJob.coinbaseAlone_eq, hbegin]
    have hbytes := hsame _ _ 0 _ _ 0 (if_pos rfl) rfl _ _
      (CoinbaseJob.coinbaseInitial_between hbegin hbegin' rfl) halone
    exact hne (CoinbaseJob.serializeUpgrade_inj (List.append_cancel_left hbytes))
  · intro hserializes jobs schedule number jobs' schedule' number' hjob hjob' bytes bytes' hbytes
      hbytes'
    have hown : ∀ (jobs : ℕ → CoinbaseJob) (schedule : List ℕ) (number : ℕ), jobs number = job →
        ReadsOwnExpiryHeight library jobs schedule number := by
      rintro jobs schedule number rfl before after - stream hwriting
      have hbuilt := @isBuilt_run library jobs before number
      change (Process.run library jobs before).threads number = .writing stream at hwriting
      rw [hwriting] at hbuilt
      exact absurd (CoinbaseJob.serializesUpgrade_iff.mpr ⟨stream, hbuilt.1⟩) hserializes
    have halone := (coinbaseAlone_iff_readsOwn schedule number).mpr
      (hown jobs schedule number hjob) bytes hbytes
    have halone' := (coinbaseAlone_iff_readsOwn schedule' number').mpr
      (hown jobs' schedule' number' hjob') bytes' hbytes'
    rw [hjob] at halone
    rw [hjob'] at halone'
    exact Option.some.inj (halone.symm.trans halone')

namespace SharedFields

/-- A library whose scripts are empty. -/
def library : TransactionLibrary where
  createCoinbase _ := []
  decodeBase58 _ := none
  zcashVersion version _ := littleEndian 4 version

/-- A Veruscoin job before PBaaS. -/
def verus : CoinbaseJob where
  jobClass := .veruscoin
  blockTemplate := { height := 7, coinbaseValue := 5, solution := "06000000".toList }
  networkParams :=
    { saplingActivationHeight := some 1
      saplingTxVersion := some 4
      saplingTxVersionGroupId := some 2301567109 }
  poolAddressDestination := []

/-- A Veruscoin pool with the number 0, and Zcash pools at heights of their own. -/
def jobs (number : ℕ) : CoinbaseJob :=
  if number = 0 then verus else CoinbaseJob.storing (UInt32.ofNat number)

end SharedFields

open SharedFields in
/-- A Veruscoin job behind one of Zcash, and two of Zcash side by side. -/
theorem coinbaseInitial_shared :
    (Process.run library jobs [0, 0]).coinbaseInitial 0 ≠
      (Process.run library jobs [9, 9, 0, 0]).coinbaseInitial 0 ∧
    (Process.run library jobs [0, 0]).coinbaseInitial 0 = verus.coinbaseAlone library ∧
    (Process.run library jobs [3, 4, 3]).coinbaseInitial 3 ≠
      (Process.run library jobs [3, 3]).coinbaseInitial 3 ∧
    ((Process.run library jobs [3, 4, 3]).coinbaseInitial 3).isSome := by
  decide +kernel

end Miningcore.Equihash
