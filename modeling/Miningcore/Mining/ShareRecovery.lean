import Mathlib.Data.List.DropRight
import Mathlib.Data.List.Induction
import Mathlib.Data.List.ReduceOption
import Miningcore.Extensions.HexParsing
import Miningcore.Mining.ShareRecorder

/-!
# Recovering shares from a file

The shares of a recovery file are read line by line and written in batches, without
the policies of the recorder. A batch that fails stays in front of the shares that are
read after it, and is tried again when the list has the size of a batch, or at the end.

## Implementation notes

A line is parsed to a share or to `null`, which has no row. A file that is not there is
only logged, and so is the progress every ten seconds.
-/

namespace Miningcore.Mining

open Foundation

def recoveryBufferSize : ℕ := 100

/-- The shares of a line, or the exception of one that is not parsed. -/
abbrev LineParser (α : Type*) := List Char → Option (Option α)

/-- The reader of a file, with the outcome of each import. -/
structure Recovery (α : Type*) where
  recorder : ShareRecorder α
  shares : List (Option α)
  successCount : ℕ
  failCount : ℕ
  imports : List (Option RecorderException)

section recovery

variable {α : Type*} (isBlockCandidate : α → Bool) (attempts : ℕ → Attempt)
  (parse : LineParser α)

/-- A list with `null` is not mapped to rows. -/
def persistParsed (shares : List (Option α)) : Action (ShareRecorder α) RecorderException :=
  fun recorder =>
    if shares.all Option.isSome then
      persistSharesCore isBlockCandidate attempts shares.reduceOption recorder
    else
      let attempt := attempts recorder.attempts
      let exception := match attempt.failure with
        | some (.opening, exception) => exception
        | _ => .other
      (some exception, { recorder with
        clock := recorder.clock + attempt.duration
        attempts := recorder.attempts + 1 })

/-- Import the shares of the list, and count them or the failure. -/
def Recovery.importShares (recovery : Recovery α) : Bool × Recovery α :=
  match persistParsed isBlockCandidate attempts recovery.shares recovery.recorder with
  | (none, recorder) => (true, { recovery with
      recorder
      successCount := recovery.successCount + recovery.shares.length
      imports := recovery.imports ++ [none] })
  | (some exception, recorder) => (false, { recovery with
      recorder
      failCount := recovery.failCount + 1
      imports := recovery.imports ++ [some exception] })

/-- Skip blank lines and comments. -/
def recordOf (line : List Char) : Option (List Char) :=
  let line := (line.dropWhile isWhiteSpace).rdropWhile isWhiteSpace
  if line.isEmpty then none
  else if line.head? = some '#' then none
  else some line

def Recovery.parseLine (recovery : Recovery α) (line : List Char) : Recovery α :=
  match parse line with
  | some share => { recovery with shares := recovery.shares ++ [share] }
  | none => { recovery with failCount := recovery.failCount + 1 }

/-- Import a batch. The list is cleared when that succeeds. -/
def Recovery.importFull (recovery : Recovery α) : Recovery α :=
  if recovery.shares.length = recoveryBufferSize then
    let (imported, recovery) := recovery.importShares isBlockCandidate attempts
    if imported then { recovery with shares := [] } else recovery
  else recovery

def Recovery.readLine (recovery : Recovery α) (line : List Char) : Recovery α :=
  match recordOf line with
  | none => recovery
  | some line => (recovery.parseLine parse line).importFull isBlockCandidate attempts

def readLines (recorder : ShareRecorder α) (lines : List (List Char)) : Recovery α :=
  lines.foldl (Recovery.readLine isBlockCandidate attempts parse) ⟨recorder, [], 0, 0, []⟩

/-- Read all lines, and import remaining shares. -/
def recoverShares (recorder : ShareRecorder α) (lines : List (List Char)) : Recovery α :=
  let recovery := readLines isBlockCandidate attempts parse recorder lines
  if 0 < recovery.shares.length then (recovery.importShares isBlockCandidate attempts).2
  else recovery

/-- The shares that are parsed from the lines of a file. -/
def parsedShares (lines : List (List Char)) : List (Option α) :=
  lines.filterMap fun line => (recordOf line).bind parse

end recovery

section buffered

variable {α : Type*} {isBlockCandidate : α → Bool} {attempts : ℕ → Attempt}
  {parse : LineParser α} {before : Tables α} {parsed : List (Option α)} {recovery : Recovery α}

variable (isBlockCandidate before parsed) in
/-- What is parsed is in the tables and counted, or still in the list. -/
def Recovery.Buffered (recovery : Recovery α) : Prop :=
  ∃ persisted : List α,
    recovery.recorder.tables.shares = before.shares ++ persisted ∧
    recovery.recorder.tables.blocks = before.blocks ++ persisted.filter isBlockCandidate ∧
    recovery.successCount = persisted.length ∧
    parsed = persisted.map some ++ recovery.shares

theorem map_some_reduceOption {shares : List (Option α)} (h : shares.all Option.isSome = true) :
    shares.reduceOption.map some = shares := by
  induction shares with
  | nil => rfl
  | cons share shares ih =>
      rw [List.all_cons, Bool.and_eq_true] at h
      obtain ⟨row, rfl⟩ := Option.isSome_iff_exists.mp h.1
      rw [List.reduceOption_cons_of_some, List.map_cons, ih h.2]

/-- A transaction either ends with an exception and leaves the tables or commits the batch. -/
theorem runTx_cases (attempt : Attempt) (shares : List α) (tables : Tables α) :
    (∃ exception, runTx isBlockCandidate attempt shares tables = (some exception, tables)) ∨
      runTx isBlockCandidate attempt shares tables =
        (none, commit isBlockCandidate shares tables) := by
  rw [runTx]
  obtain hnone | ⟨failure, hsome⟩ := attempt.failure.eq_none_or_eq_some
  · rw [hnone]
    exact .inr rfl
  obtain ⟨point, exception⟩ := failure
  rw [hsome]
  cases point with
  | opening => exact .inl ⟨exception, rfl⟩
  | statement index =>
      dsimp only
      split_ifs
      · exact .inl ⟨exception, rfl⟩
      · exact .inr rfl
  | commit => exact .inl ⟨exception, rfl⟩

/-- An import that returns has emptied what was in the list into the tables, and another one has
kept them. -/
theorem persistParsed_cases (shares : List (Option α)) (recorder : ShareRecorder α) :
    (∃ exception after, persistParsed isBlockCandidate attempts shares recorder =
        (some exception, after) ∧ after.tables = recorder.tables) ∨
      ∃ after rows, persistParsed isBlockCandidate attempts shares recorder = (none, after) ∧
        shares = rows.map some ∧ after.tables = commit isBlockCandidate rows recorder.tables := by
  by_cases hall : shares.all Option.isSome = true
  · have hpersist : persistParsed isBlockCandidate attempts shares recorder =
        persistSharesCore isBlockCandidate attempts shares.reduceOption recorder := if_pos hall
    rw [hpersist, persistSharesCore]
    obtain ⟨exception, hrun⟩ | hrun := @runTx_cases _ isBlockCandidate
      (attempts recorder.attempts) shares.reduceOption recorder.tables
    · exact .inl ⟨exception, _, congrArg₂ Prod.mk (congrArg Prod.fst hrun) rfl,
        congrArg Prod.snd hrun⟩
    · exact .inr ⟨_, shares.reduceOption, congrArg₂ Prod.mk (congrArg Prod.fst hrun) rfl,
        (map_some_reduceOption hall).symm, congrArg Prod.snd hrun⟩
  · exact .inl ⟨_, _, if_neg hall, rfl⟩

/-- An import that succeeds empties the list, and any other leaves everything but the count of
failures. -/
theorem Recovery.Buffered.importShares
    (h : recovery.Buffered isBlockCandidate before parsed) :
    ((recovery.importShares isBlockCandidate attempts).1 = true ∧
      (recovery.importShares isBlockCandidate attempts).2.imports = recovery.imports ++ [none] ∧
      { (recovery.importShares isBlockCandidate attempts).2 with shares := [] }.Buffered
        isBlockCandidate before parsed) ∨
    ((recovery.importShares isBlockCandidate attempts).1 = false ∧
      (∃ exception, (recovery.importShares isBlockCandidate attempts).2.imports =
        recovery.imports ++ [some exception]) ∧
      (recovery.importShares isBlockCandidate attempts).2.Buffered isBlockCandidate before
        parsed) := by
  obtain ⟨persisted, hshares, hblocks, hcount, hparsed⟩ := h
  rw [Recovery.importShares]
  obtain ⟨exception, after, hrun, hkept⟩ | ⟨after, rows, hrun, hrows, hcommitted⟩ :=
    @persistParsed_cases _ isBlockCandidate attempts recovery.shares recovery.recorder
  · rw [hrun]
    exact .inr ⟨rfl, ⟨exception, rfl⟩, persisted, hkept ▸ hshares, hkept ▸ hblocks, hcount, hparsed⟩
  · rw [hrun]
    rw [commit_eq] at hcommitted
    refine .inl ⟨rfl, rfl, persisted ++ rows, ?_, ?_, ?_, ?_⟩
    · rw [hcommitted, hshares, List.append_assoc]
    · rw [hcommitted, hblocks, List.filter_append, List.append_assoc]
    · rw [hcount, hrows, List.length_map, List.length_append]
    · rw [hparsed, hrows, List.map_append, List.append_nil]

theorem Recovery.Buffered.parseLine (h : recovery.Buffered isBlockCandidate before parsed)
    (line : List Char) :
    (recovery.parseLine parse line).Buffered isBlockCandidate before
      (parsed ++ (parse line).toList) := by
  obtain ⟨persisted, hshares, hblocks, hcount, hparsed⟩ := h
  rw [Recovery.parseLine]
  cases parse line with
  | none => exact ⟨persisted, hshares, hblocks, hcount, by simpa using hparsed⟩
  | some share => exact ⟨persisted, hshares, hblocks, hcount, by simp [hparsed]⟩

theorem Recovery.Buffered.importFull (h : recovery.Buffered isBlockCandidate before parsed) :
    (recovery.importFull isBlockCandidate attempts).Buffered isBlockCandidate before parsed := by
  have himport := @Recovery.Buffered.importShares _ _ attempts _ _ _ h
  rw [Recovery.importFull]
  split_ifs
  · rcases hrun : recovery.importShares isBlockCandidate attempts with ⟨imported, after⟩
    rw [hrun] at himport
    obtain ⟨himported, -, hbuffered⟩ | ⟨himported, -, hbuffered⟩ := himport
    · obtain rfl : imported = true := himported
      exact hbuffered
    · obtain rfl : imported = false := himported
      exact hbuffered
  · exact h

theorem Recovery.Buffered.readLine (h : recovery.Buffered isBlockCandidate before parsed)
    (line : List Char) :
    (recovery.readLine isBlockCandidate attempts parse line).Buffered isBlockCandidate before
      (parsed ++ ((recordOf line).bind parse).toList) := by
  rw [Recovery.readLine]
  cases recordOf line with
  | none => simpa using h
  | some record => exact (h.parseLine record).importFull

theorem buffered_readLines (recorder : ShareRecorder α) (lines : List (List Char)) :
    (readLines isBlockCandidate attempts parse recorder lines).Buffered isBlockCandidate
      recorder.tables (parsedShares parse lines) := by
  induction lines using List.reverseRecOn with
  | nil => exact ⟨[], (List.append_nil _).symm, (List.append_nil _).symm, rfl, rfl⟩
  | append_singleton lines line ih =>
      have hparsed : parsedShares parse (lines ++ [line]) =
          parsedShares parse lines ++ ((recordOf line).bind parse).toList := by
        rw [parsedShares, List.filterMap_append, parsedShares]
        cases hline : (recordOf line).bind parse with
        | none => simp [hline]
        | some share => simp [hline]
      rw [readLines, List.foldl_append, hparsed]
      exact ih.readLine line

end buffered

end Miningcore.Mining
