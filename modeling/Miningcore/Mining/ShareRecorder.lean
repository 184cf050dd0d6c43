import Mathlib.Algebra.Order.Ring.Nat
import Miningcore.Foundation.FaultPolicies

/-!
# Recording shares

The shares of all pools are written to the database in batches, each in one
transaction with its blocks. An attempt that fails for a passing reason is made
again. When that does not help, or has not helped the batches before, the batch
goes to a recovery file.

## Implementation notes

A row is the share it is mapped from. Every attempt has a place at which it
fails, if it does, and the exception it ends with, which is the one of rolling
back when that throws. A transaction that does not commit leaves the tables as
they were. Times are ticks of 100 ns.
-/

namespace Miningcore.Mining

open Foundation

def second : ℕ := 10000000

def retryCount : ℕ := 3

inductive RecorderException where
  | db
  | socket
  | timeout
  | brokenCircuit
  | other
deriving DecidableEq

namespace RecorderException

/-- The exceptions that are retried, counted by the breaker, and fallen back from. -/
def isTransient : RecorderException → Bool
  | db | socket | timeout => true
  | brokenCircuit | other => false

def isBrokenCircuit : RecorderException → Bool
  | brokenCircuit => true
  | db | socket | timeout | other => false

end RecorderException

inductive Place where
  | opening
  | statement (index : ℕ)
  | commit
deriving DecidableEq

/-- What the database does in an attempt. -/
structure Attempt where
  duration : ℕ
  failure : Option (Place × RecorderException)
deriving DecidableEq

/-- The attempt does not fail, or for a passing reason. -/
def Attempt.IsTransient (attempt : Attempt) : Prop :=
  ∀ failure ∈ attempt.failure, failure.2.isTransient = true

inductive RecoveryLine (α : Type*) where
  | header
  | share (share : α)
deriving DecidableEq

/-- The tables, and the batches of the transactions that committed. -/
structure Tables (α : Type*) where
  shares : List α
  blocks : List α
  transactions : List (List α)
deriving DecidableEq

structure ShareRecorder (α : Type*) where
  clock : ℕ
  attempts : ℕ
  circuit : Circuit
  tables : Tables α
  recoveryFile : List (RecoveryLine α)

/-- A batch, the time since the one before it was done, and the number of lines after which writing
the recovery file fails, if it does. -/
structure Batch (α : Type*) where
  wait : ℕ
  shares : List α
  fileFailure : Option ℕ

section transaction

variable {α : Type*} (isBlockCandidate : α → Bool)

/-- Insert shares, insert blocks. -/
def statements (shares : List α) : List (Tables α → Tables α) :=
  (fun tables => { tables with shares := tables.shares ++ shares }) ::
    (shares.filter isBlockCandidate).map fun share tables =>
      { tables with blocks := tables.blocks ++ [share] }

def commit (shares : List α) (tables : Tables α) : Tables α :=
  let tables := (statements isBlockCandidate shares).foldl (fun tables statement =>
    statement tables) tables
  { tables with transactions := tables.transactions ++ [shares] }

/-- Run the statements inside a transaction. -/
def runTx (attempt : Attempt) (shares : List α) (tables : Tables α) :
    Option RecorderException × Tables α :=
  match attempt.failure with
  | none => (none, commit isBlockCandidate shares tables)
  | some (.opening, exception) => (some exception, tables)
  | some (.statement index, exception) =>
      if index < (statements isBlockCandidate shares).length then
        (some exception, tables)
      else (none, commit isBlockCandidate shares tables)
  | some (.commit, exception) => (some exception, tables)

variable (attempts : ℕ → Attempt)

def persistSharesCore (shares : List α) : Action (ShareRecorder α) RecorderException :=
  fun recorder =>
    let attempt := attempts recorder.attempts
    let result := runTx isBlockCandidate attempt shares recorder.tables
    (result.1, { recorder with
      clock := recorder.clock + attempt.duration
      attempts := recorder.attempts + 1
      tables := result.2 })

/-- The lines for a batch, with a header when there are none yet. -/
def recoveryLines (shares : List α) (recoveryFile : List (RecoveryLine α)) :
    List (RecoveryLine α) :=
  (if recoveryFile.isEmpty then [.header] else []) ++ shares.map .share

/-- An exception while the file is written is logged. -/
def onExecutePolicyFallback (fileFailure : Option ℕ) (shares : List α) :
    Action (ShareRecorder α) RecorderException := fun recorder =>
  let lines := recoveryLines shares recorder.recoveryFile
  let written := match fileFailure with
    | none => lines
    | some count => lines.take count
  (none, { recorder with recoveryFile := recorder.recoveryFile ++ written })

def waitForRetry (attempt : ℕ) (recorder : ShareRecorder α) : ShareRecorder α :=
  { recorder with clock := recorder.clock + 2 ^ attempt * second }

/-- After two batches whose retries failed, fall through to the fallback for one minute. -/
def breaker : Breaker (ShareRecorder α) RecorderException where
  handles := RecorderException.isTransient
  allowed := 2
  duration := 60 * second
  broken := .brokenCircuit
  clock := ShareRecorder.clock
  circuit := ShareRecorder.circuit
  setCircuit circuit recorder := { recorder with circuit }

def faultPolicy (onFallback action : Action (ShareRecorder α) RecorderException) :
    Action (ShareRecorder α) RecorderException :=
  Action.fallback RecorderException.isBrokenCircuit onFallback
    (Action.fallback RecorderException.isTransient onFallback
      (Action.circuitBreaker breaker
        (Action.retry RecorderException.isTransient waitForRetry action retryCount 1)))

def persistShares (fileFailure : Option ℕ) (shares : List α) :
    Action (ShareRecorder α) RecorderException :=
  faultPolicy (onExecutePolicyFallback fileFailure shares)
    (persistSharesCore isBlockCandidate attempts shares)

/-- A batch is handled after the one before it, and an exception is logged. -/
def record (recorder : ShareRecorder α) (batch : Batch α) : ShareRecorder α :=
  (persistShares isBlockCandidate attempts batch.fileFailure batch.shares
    { recorder with clock := recorder.clock + batch.wait }).2

def recordAll (recorder : ShareRecorder α) (batches : List (Batch α)) : ShareRecorder α :=
  batches.foldl (record isBlockCandidate attempts) recorder

end transaction

/-!
## Batches of shares end up once

An attempt that fails keeps the tables and the recovery file, and so do waiting
and the breaker. So a batch whose failures pass is committed by one transaction
or appended to the recovery file, whatever the failures of the batches before it
have done to the breaker.
-/

section batches

/-- Where a batch ends up. -/
inductive Disposition where
  | committed
  | recovered
deriving DecidableEq

variable {α : Type*} (isBlockCandidate : α → Bool) (shares : List α)

/-- Neither the tables nor the file change. -/
def Kept (recorder after : ShareRecorder α) : Prop :=
  after.tables = recorder.tables ∧ after.recoveryFile = recorder.recoveryFile

/-- The batch is in the tables, and not in the file. -/
def Committed (recorder after : ShareRecorder α) : Prop :=
  after.tables = commit isBlockCandidate shares recorder.tables ∧
    after.recoveryFile = recorder.recoveryFile

/-- The batch is in the file, and not in the tables. -/
def Recovered (recorder after : ShareRecorder α) : Prop :=
  after.tables = recorder.tables ∧
    after.recoveryFile = recorder.recoveryFile ++ recoveryLines shares recorder.recoveryFile

section policies

variable {isBlockCandidate shares}

theorem framed_committed : Framed (Committed isBlockCandidate shares) Kept where
  refl _ := ⟨rfl, rfl⟩
  trans h h' := ⟨h'.1.trans h.1, h'.2.trans h.2⟩
  before h h' := ⟨h.1 ▸ h'.1, h'.2.trans h.2⟩
  after h h' := ⟨h'.1.trans h.1, h'.2.trans h.2⟩

theorem framed_recovered : Framed (Recovered shares) Kept where
  refl _ := ⟨rfl, rfl⟩
  trans h h' := ⟨h'.1.trans h.1, h'.2.trans h.2⟩
  before h h' := ⟨h'.1.trans h.1, h.2 ▸ h'.2⟩
  after h h' := ⟨h'.1.trans h.1, h'.2.trans h.2⟩

/-- A transaction that throws leaves the tables, and one that returns has committed. -/
theorem runTx_settles (attempt : Attempt) (htransient : attempt.IsTransient)
    (tables : Tables α) :
    match runTx isBlockCandidate attempt shares tables with
    | (none, after) => after = commit isBlockCandidate shares tables
    | (some exception, after) => exception.isTransient = true ∧ after = tables := by
  rw [Attempt.IsTransient] at htransient
  rw [runTx]
  match hfailure : attempt.failure with
  | none => exact rfl
  | some (.opening, exception) => exact ⟨htransient _ hfailure, rfl⟩
  | some (.statement index, exception) =>
      dsimp only
      split_ifs
      · exact ⟨htransient _ hfailure, rfl⟩
      · exact rfl
  | some (.commit, exception) => exact ⟨htransient _ hfailure, rfl⟩

/-- An attempt commits the batch or keeps everything. -/
theorem persistSharesCore_settles {attempts : ℕ → Attempt}
    (htransient : ∀ n, (attempts n).IsTransient) :
    Settles (persistSharesCore isBlockCandidate attempts shares)
      (Committed isBlockCandidate shares) Kept fun exception => exception.isTransient = true := by
  intro recorder
  have hsettles := @runTx_settles _ isBlockCandidate shares (attempts recorder.attempts)
    (htransient _) recorder.tables
  rw [persistSharesCore]
  dsimp only
  rcases hrun : runTx isBlockCandidate (attempts recorder.attempts) shares recorder.tables with
    ⟨_ | exception, after⟩
  · rw [hrun] at hsettles
    exact ⟨hsettles, rfl⟩
  · rw [hrun] at hsettles
    exact ⟨hsettles.1, hsettles.2, rfl⟩

theorem onExecutePolicyFallback_settles :
    Settles (onExecutePolicyFallback none shares) (Recovered shares) Kept fun _ => False :=
  fun _ => ⟨rfl, rfl⟩

/-- An exception that passes or is of the broken circuit has a fallback. -/
theorem RecorderException.handled {exception : RecorderException}
    (h : exception.isTransient = true ∨ exception = .brokenCircuit)
    (htransient : exception.isTransient = false) : exception.isBrokenCircuit = true := by
  rcases h with h | h
  · rw [h] at htransient
    contradiction
  · rw [h]
    rfl

theorem clock_kept (clock : ℕ) (recorder : ShareRecorder α) :
    Kept recorder { recorder with clock } :=
  ⟨rfl, rfl⟩

theorem waitForRetry_kept (attempt : ℕ) (recorder : ShareRecorder α) :
    Kept recorder (waitForRetry attempt recorder) := by
  rw [waitForRetry]
  exact clock_kept _ recorder

theorem setCircuit_kept (circuit : Circuit) (recorder : ShareRecorder α) :
    Kept recorder (breaker.setCircuit circuit recorder) :=
  ⟨rfl, rfl⟩

/-- The retries and the breaker commit the batch or keep everything. -/
theorem circuitBreaker_settles {attempts : ℕ → Attempt}
    (htransient : ∀ n, (attempts n).IsTransient) :
    Settles (Action.circuitBreaker breaker (Action.retry RecorderException.isTransient
        waitForRetry (persistSharesCore isBlockCandidate attempts shares) retryCount 1))
      (Committed isBlockCandidate shares) Kept
      fun exception => exception.isTransient = true ∨ exception = .brokenCircuit :=
  Settles.circuitBreaker framed_committed setCircuit_kept
    (Settles.retry framed_committed waitForRetry_kept (persistSharesCore_settles htransient)
      retryCount 1)

/-- The policies around an attempt commit the batch or append it to the file. -/
theorem persistShares_settles {attempts : ℕ → Attempt}
    (htransient : ∀ n, (attempts n).IsTransient) :
    Settles (persistShares isBlockCandidate attempts none shares)
      (fun recorder after => Committed isBlockCandidate shares recorder after ∨
        Recovered shares recorder after) Kept fun _ => False := by
  have hfile := @onExecutePolicyFallback_settles _ shares
  have hcircuit := @circuitBreaker_settles _ isBlockCandidate shares _ htransient
  refine ((hcircuit.fallback framed_recovered hfile).fallback framed_recovered hfile).mono
    (fun recorder after h => h.elim id Or.inr) ?_
  rintro exception ⟨⟨hraised, hpassing⟩, hnot⟩
  rw [RecorderException.handled hraised hpassing] at hnot
  contradiction

end policies

/-! ### Batches under any failures -/

section anyFailure

variable {isBlockCandidate shares}

/-- The batch is in the tables, or they do not change. -/
def Written (isBlockCandidate : α → Bool) (shares : List α) (recorder after : ShareRecorder α) :
    Prop :=
  after.tables = commit isBlockCandidate shares recorder.tables ∨ after.tables = recorder.tables

def Unwritten (recorder after : ShareRecorder α) : Prop := after.tables = recorder.tables

theorem framed_written : Framed (Written isBlockCandidate shares) Unwritten where
  refl _ := rfl
  trans h h' := h'.trans h
  before h h' := h'.imp (h ▸ ·) fun hsame => hsame.trans h
  after h h' := h.imp h'.trans h'.trans

theorem framed_unwritten : Framed (Unwritten (α := α)) Unwritten where
  refl _ := rfl
  trans h h' := h'.trans h
  before h h' := h'.trans h
  after h h' := h'.trans h

theorem persistSharesCore_writes (attempts : ℕ → Attempt) :
    Settles (persistSharesCore isBlockCandidate attempts shares)
      (Written isBlockCandidate shares) Unwritten fun _ => True := by
  intro recorder
  rw [persistSharesCore]
  dsimp only
  generalize attempts recorder.attempts = attempt
  rw [runTx]
  match attempt.failure with
  | none => exact Or.inl rfl
  | some (.opening, exception) => exact ⟨trivial, rfl⟩
  | some (.statement index, exception) =>
      dsimp only
      split_ifs
      · exact ⟨trivial, rfl⟩
      · exact Or.inl rfl
  | some (.commit, exception) => exact ⟨trivial, rfl⟩

theorem onExecutePolicyFallback_writes (fileFailure : Option ℕ) :
    Settles (onExecutePolicyFallback fileFailure shares) Unwritten Unwritten fun _ => False :=
  fun _ => rfl

theorem persistShares_writes (attempts : ℕ → Attempt) (fileFailure : Option ℕ) :
    Settles (persistShares isBlockCandidate attempts fileFailure shares)
      (Written isBlockCandidate shares) Unwritten fun _ => True := by
  have hfile := @onExecutePolicyFallback_writes _ shares fileFailure
  have hcircuit : Settles (Action.circuitBreaker breaker (Action.retry
      RecorderException.isTransient waitForRetry
        (persistSharesCore isBlockCandidate attempts shares) retryCount 1))
      (Written isBlockCandidate shares) Unwritten
      fun exception => True ∨ exception = .brokenCircuit :=
    Settles.circuitBreaker framed_written
      (fun circuit recorder => (setCircuit_kept circuit recorder).1)
      (Settles.retry framed_written (fun attempt recorder => (waitForRetry_kept attempt recorder).1)
        (persistSharesCore_writes attempts) retryCount 1)
  refine ((hcircuit.fallback framed_unwritten hfile).fallback framed_unwritten hfile).mono
    ?_ fun _ _ => trivial
  rintro recorder after ((hwritten | hsame) | hsame)
  · exact hwritten
  · exact Or.inr hsame
  · exact Or.inr hsame

/-- Whatever fails, a batch is written in one transaction or leaves the tables. -/
theorem written_record (attempts : ℕ → Attempt) (recorder : ShareRecorder α) (batch : Batch α) :
    Written isBlockCandidate batch.shares recorder
      (record isBlockCandidate attempts recorder batch) := by
  have hwait : Unwritten recorder { recorder with clock := recorder.clock + batch.wait } :=
    (clock_kept _ recorder).1
  have hsettles := @persistShares_writes _ isBlockCandidate batch.shares attempts batch.fileFailure
  rw [record]
  rcases hrun : persistShares isBlockCandidate attempts batch.fileFailure batch.shares
    { recorder with clock := recorder.clock + batch.wait } with ⟨_ | exception, after⟩
  · exact framed_written.before hwait (hsettles.returned hrun)
  · exact Or.inr ((hsettles.thrown hrun).2.trans hwait)

end anyFailure

section runs

/-- The shares written to the file, without the lines of its header. -/
def recoveredShares (recoveryFile : List (RecoveryLine α)) : List α :=
  recoveryFile.filterMap fun line =>
    match line with
    | .header => none
    | .share share => some share

/-- The batches that end up in a place, in order. -/
def batchesIn (place : Disposition) : List (Batch α) → List Disposition → List (List α)
  | batch :: batches, disposition :: dispositions =>
      if disposition = place then batch.shares :: batchesIn place batches dispositions
      else batchesIn place batches dispositions
  | _, _ => []

/-- Every batch has one place, and in both places is what ends up there, once and in order. -/
structure PersistedOnce (batches : List (Batch α)) (dispositions : List Disposition)
    (recorder after : ShareRecorder α) : Prop where
  length : dispositions.length = batches.length
  transactions : after.tables.transactions =
    recorder.tables.transactions ++ batchesIn .committed batches dispositions
  shares : after.tables.shares =
    recorder.tables.shares ++ (batchesIn .committed batches dispositions).flatten
  blocks : after.tables.blocks = recorder.tables.blocks ++
    (batchesIn .committed batches dispositions).flatten.filter isBlockCandidate
  recovered : recoveredShares after.recoveryFile = recoveredShares recorder.recoveryFile ++
    (batchesIn .recovered batches dispositions).flatten

theorem recoveredShares_append (lines lines' : List (RecoveryLine α)) :
    recoveredShares (lines ++ lines') = recoveredShares lines ++ recoveredShares lines' :=
  List.filterMap_append

@[simp] theorem recoveredShares_recoveryLines (recoveryFile : List (RecoveryLine α)) :
    recoveredShares (recoveryLines shares recoveryFile) = shares := by
  rw [recoveryLines, recoveredShares_append]
  have hheader : recoveredShares (if recoveryFile.isEmpty then [RecoveryLine.header] else []) =
      ([] : List α) := by
    split_ifs <;> rfl
  have hshares : recoveredShares (shares.map .share) = shares := by
    rw [recoveredShares, List.filterMap_map]
    exact List.filterMap_some
  rw [hheader, hshares, List.nil_append]

theorem foldl_insertBlocks (blocks : List α) (tables : Tables α) :
    (blocks.map fun share (tables : Tables α) =>
      { tables with blocks := tables.blocks ++ [share] }).foldl (fun tables statement =>
        statement tables) tables = { tables with blocks := tables.blocks ++ blocks } := by
  induction blocks generalizing tables with
  | nil => simp
  | cons share blocks ih =>
      rw [List.map_cons, List.foldl_cons, ih]
      simp

/-- A transaction adds the shares, and the candidates among them as blocks. -/
theorem commit_eq (tables : Tables α) : commit isBlockCandidate shares tables =
    { shares := tables.shares ++ shares
      blocks := tables.blocks ++ shares.filter isBlockCandidate
      transactions := tables.transactions ++ [shares] } := by
  rw [commit, statements, List.foldl_cons, foldl_insertBlocks]

variable {isBlockCandidate}

theorem PersistedOnce.nil (recorder : ShareRecorder α) :
    PersistedOnce isBlockCandidate [] [] recorder recorder where
  length := rfl
  transactions := (List.append_nil _).symm
  shares := (List.append_nil _).symm
  blocks := (List.append_nil _).symm
  recovered := (List.append_nil _).symm

/-- A batch that is committed comes before the ones committed after it. -/
theorem PersistedOnce.committed {batch : Batch α} {batches : List (Batch α)}
    {dispositions : List Disposition} {recorder between after : ShareRecorder α}
    (h : Committed isBlockCandidate batch.shares recorder between)
    (hrest : PersistedOnce isBlockCandidate batches dispositions between after) :
    PersistedOnce isBlockCandidate (batch :: batches) (.committed :: dispositions)
      recorder after := by
  obtain ⟨htables, hfile⟩ := h
  rw [commit_eq] at htables
  constructor
  · exact congrArg (· + 1) hrest.length
  · rw [hrest.transactions, htables]
    exact List.append_assoc _ _ _
  · rw [hrest.shares, htables]
    exact List.append_assoc _ _ _
  · rw [hrest.blocks, htables, batchesIn, if_pos rfl, List.flatten_cons, List.filter_append]
    exact List.append_assoc _ _ _
  · rw [hrest.recovered, hfile]
    rfl

/-- A batch that is recovered comes before the ones recovered after it. -/
theorem PersistedOnce.recovered_cons {batch : Batch α} {batches : List (Batch α)}
    {dispositions : List Disposition} {recorder between after : ShareRecorder α}
    (h : Recovered batch.shares recorder between)
    (hrest : PersistedOnce isBlockCandidate batches dispositions between after) :
    PersistedOnce isBlockCandidate (batch :: batches) (.recovered :: dispositions)
      recorder after := by
  obtain ⟨htables, hfile⟩ := h
  constructor
  · exact congrArg (· + 1) hrest.length
  · rw [hrest.transactions, htables]
    rfl
  · rw [hrest.shares, htables]
    rfl
  · rw [hrest.blocks, htables]
    rfl
  · rw [hrest.recovered, hfile, recoveredShares_append, recoveredShares_recoveryLines,
      List.append_assoc]
    rfl

/-- One batch is committed or recovered. -/
theorem record_settles {attempts : ℕ → Attempt} (htransient : ∀ n, (attempts n).IsTransient)
    {batch : Batch α} (hfile : batch.fileFailure = none) (recorder : ShareRecorder α) :
    Committed isBlockCandidate batch.shares recorder
        (record isBlockCandidate attempts recorder batch) ∨
      Recovered batch.shares recorder (record isBlockCandidate attempts recorder batch) := by
  rw [record, hfile]
  have hwait := clock_kept (recorder.clock + batch.wait) recorder
  have hsettles := @persistShares_settles _ isBlockCandidate batch.shares _ htransient
  rcases hrun : persistShares isBlockCandidate attempts none batch.shares
    { recorder with clock := recorder.clock + batch.wait } with ⟨_ | exception, after⟩
  · exact (hsettles.returned hrun).imp (framed_committed.before hwait)
      (framed_recovered.before hwait)
  · exact (hsettles.thrown hrun).1.elim

/-- Whatever attempts fail for a passing reason, every batch ends up once, in the tables or in
the file. -/
theorem persistedOnce_recordAll {attempts : ℕ → Attempt}
    (htransient : ∀ n, (attempts n).IsTransient) (batches : List (Batch α))
    (hfile : ∀ batch ∈ batches, batch.fileFailure = none) (recorder : ShareRecorder α) :
    ∃ dispositions, PersistedOnce isBlockCandidate batches dispositions recorder
      (recordAll isBlockCandidate attempts recorder batches) := by
  induction batches generalizing recorder with
  | nil => exact ⟨[], .nil recorder⟩
  | cons batch batches ih =>
      rw [List.forall_mem_cons] at hfile
      obtain ⟨dispositions, hrest⟩ := ih hfile.2 (record isBlockCandidate attempts recorder batch)
      rcases record_settles htransient hfile.1 recorder with h | h
      · exact ⟨.committed :: dispositions, .committed h hrest⟩
      · exact ⟨.recovered :: dispositions, .recovered_cons h hrest⟩

/-- Four failures in a row, and then none. -/
theorem persistedOnce_recordAll_outage :
    ∃ dispositions, PersistedOnce (fun share => share == 5)
      [⟨0, [1, 5], none⟩, ⟨20, [2], none⟩] dispositions
      ⟨0, 0, .initial, ⟨[], [], []⟩, []⟩
      (recordAll (fun share => share == 5)
        (fun n => if n < 4 then ⟨1, some (.statement 1, .db)⟩ else ⟨1, none⟩)
        ⟨0, 0, .initial, ⟨[], [], []⟩, []⟩ [⟨0, [1, 5], none⟩, ⟨20, [2], none⟩]) := by
  apply persistedOnce_recordAll
  · intro n
    rw [Attempt.IsTransient]
    split_ifs <;> simp [RecorderException.isTransient]
  · simp

end runs

end batches

end Miningcore.Mining
