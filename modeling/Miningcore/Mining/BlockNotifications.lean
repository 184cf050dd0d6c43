import Mathlib.Data.List.Induction
import Mathlib.Data.List.Perm.Subperm
import Miningcore.Mining.ShareRecorder

/-!
# Notifications of blocks

A notification is sent for each block of a known pool when its row is inserted, inside
the transaction. So an attempt that fails after such a row has told of a block that is
not in the table, and the attempt after it tells of the block again.

## Implementation notes

A notification is the share of the block. An attempt that fails at a statement has
sent those of the rows before it.
-/

namespace Miningcore.Mining

open Foundation

/-- A recorder, the notifications it has sent, and the attempts it has made with their shares. -/
structure NotifyingRecorder (α : Type*) where
  recorder : ShareRecorder α
  notifications : List α
  performed : List (Attempt × List α)

namespace Attempt

variable {α : Type*} (isBlockCandidate : α → Bool) (attempt : Attempt) (shares : List α)

/-- The candidates whose rows are inserted before the attempt ends. -/
def inserted : List α :=
  match attempt.failure with
  | some (.opening, _) => []
  | some (.statement index, _) => (shares.filter isBlockCandidate).take (index - 1)
  | some (.commit, _) => shares.filter isBlockCandidate
  | none => shares.filter isBlockCandidate

/-- The transaction of the attempt is committed. -/
def commits : Bool :=
  match attempt.failure with
  | some (.opening, _) => false
  | some (.statement index, _) => (shares.filter isBlockCandidate).length < index
  | some (.commit, _) => false
  | none => true

/-- The rows that the attempt leaves in the table. -/
def rows : List α :=
  if attempt.commits isBlockCandidate shares then shares.filter isBlockCandidate else []

/-- The notifications of an attempt. -/
def notified (isKnown : α → Bool) : List α :=
  (attempt.inserted isBlockCandidate shares).filter isKnown

end Attempt

namespace NotifyingRecorder

variable {α : Type*} (isBlockCandidate isKnown : α → Bool) (attempts : ℕ → Attempt)

def setRecorder (recorder : ShareRecorder α) (s : NotifyingRecorder α) : NotifyingRecorder α :=
  { s with recorder }

/-- Insert shares, insert blocks, and notify of each block of a known pool. -/
def persistSharesCore (shares : List α) : Action (NotifyingRecorder α) RecorderException :=
  fun s =>
    let attempt := attempts s.recorder.attempts
    let result := Mining.persistSharesCore isBlockCandidate attempts shares s.recorder
    (result.1, {
      recorder := result.2
      notifications := s.notifications ++ attempt.notified isBlockCandidate shares isKnown
      performed := s.performed ++ [(attempt, shares)] })

def onExecutePolicyFallback (fileFailure : Option ℕ) (shares : List α) :
    Action (NotifyingRecorder α) RecorderException := fun s =>
  let result := Mining.onExecutePolicyFallback fileFailure shares s.recorder
  (result.1, s.setRecorder result.2)

def waitForRetry (attempt : ℕ) (s : NotifyingRecorder α) : NotifyingRecorder α :=
  s.setRecorder (Mining.waitForRetry attempt s.recorder)

def breaker : Breaker (NotifyingRecorder α) RecorderException :=
  Mining.breaker.lift recorder setRecorder

def faultPolicy (onFallback action : Action (NotifyingRecorder α) RecorderException) :
    Action (NotifyingRecorder α) RecorderException :=
  Action.fallback RecorderException.isBrokenCircuit onFallback
    (Action.fallback RecorderException.isTransient onFallback
      (Action.circuitBreaker breaker
        (Action.retry RecorderException.isTransient waitForRetry action retryCount 1)))

def persistShares (fileFailure : Option ℕ) (shares : List α) :
    Action (NotifyingRecorder α) RecorderException :=
  faultPolicy (onExecutePolicyFallback fileFailure shares)
    (persistSharesCore isBlockCandidate isKnown attempts shares)

def record (s : NotifyingRecorder α) (batch : Batch α) : NotifyingRecorder α :=
  (persistShares isBlockCandidate isKnown attempts batch.fileFailure batch.shares
    (s.setRecorder { s.recorder with clock := s.recorder.clock + batch.wait })).2

/-- The batches of a recorder that has notified of nothing yet. -/
def recordAll (recorder : ShareRecorder α) (batches : List (Batch α)) : NotifyingRecorder α :=
  batches.foldl (record isBlockCandidate isKnown attempts) ⟨recorder, [], []⟩

end NotifyingRecorder

section views

variable {α : Type*} {isBlockCandidate isKnown : α → Bool} {attempts : ℕ → Attempt}

/-- Beside its notifications, the recorder does what it does without them. -/
theorem recorder_persistShares (fileFailure : Option ℕ) (shares : List α) :
    Projects NotifyingRecorder.recorder
      (NotifyingRecorder.persistShares isBlockCandidate isKnown attempts fileFailure shares)
      (persistShares isBlockCandidate attempts fileFailure shares) := by
  have hcore : Projects NotifyingRecorder.recorder
      (NotifyingRecorder.persistSharesCore isBlockCandidate isKnown attempts shares)
      (persistSharesCore isBlockCandidate attempts shares) := fun _ => rfl
  have hfile : Projects NotifyingRecorder.recorder
      (NotifyingRecorder.onExecutePolicyFallback fileFailure shares)
      (onExecutePolicyFallback fileFailure shares) := fun _ => rfl
  have hwait (attempt : ℕ) (s : NotifyingRecorder α) :
      (NotifyingRecorder.waitForRetry attempt s).recorder = waitForRetry attempt s.recorder := rfl
  have hretry : Projects NotifyingRecorder.recorder
      (Action.retry RecorderException.isTransient NotifyingRecorder.waitForRetry
        (NotifyingRecorder.persistSharesCore isBlockCandidate isKnown attempts shares) retryCount 1)
      (Action.retry RecorderException.isTransient waitForRetry
        (persistSharesCore isBlockCandidate attempts shares) retryCount 1) :=
    hcore.retry hwait retryCount 1
  apply Projects.fallback _ hfile
  apply Projects.fallback _ hfile
  exact hretry.circuitBreaker breaker fun _ _ => rfl

theorem recorder_recordAll (recorder : ShareRecorder α) (batches : List (Batch α)) :
    (NotifyingRecorder.recordAll isBlockCandidate isKnown attempts recorder batches).recorder =
      recordAll isBlockCandidate attempts recorder batches := by
  induction batches using List.reverseRecOn with
  | nil => rfl
  | append_singleton batches batch ih =>
      rw [NotifyingRecorder.recordAll, recordAll, List.foldl_append, List.foldl_append,
        ← NotifyingRecorder.recordAll]
      change _ = record isBlockCandidate attempts
        (recordAll isBlockCandidate attempts recorder batches) batch
      rw [← ih]
      exact congrArg Prod.snd (recorder_persistShares batch.fileFailure batch.shares _)

end views

section accounts

variable {α : Type*} {isBlockCandidate isKnown : α → Bool} {attempts : ℕ → Attempt}
  {before : ShareRecorder α} {s : NotifyingRecorder α} {shares : List α}

theorem blocks_runTx (attempt : Attempt) (shares : List α) (tables : Tables α) :
    (runTx isBlockCandidate attempt shares tables).2.blocks =
      tables.blocks ++ attempt.rows isBlockCandidate shares := by
  rw [runTx, Attempt.rows, Attempt.commits, statements, List.length_cons, List.length_map]
  obtain hnone | ⟨failure, hsome⟩ := attempt.failure.eq_none_or_eq_some
  · rw [hnone]
    dsimp only
    rw [commit_eq]
    rfl
  obtain ⟨point, exception⟩ := failure
  rw [hsome]
  cases point with
  | opening => exact (List.append_nil _).symm
  | statement index =>
      dsimp only
      split_ifs with hfails hcommits hcommits
      · exact absurd (of_decide_eq_true hcommits) (by omega)
      · exact (List.append_nil _).symm
      · rw [commit_eq]
      · exact absurd (decide_eq_true (show _ < index by omega)) hcommits
  | commit => exact (List.append_nil _).symm

variable (isBlockCandidate isKnown before) in
/-- The notifications and the rows since some time are those of the attempts. -/
structure Accounted (s : NotifyingRecorder α) : Prop where
  notifications : s.notifications =
    s.performed.flatMap fun p => p.1.notified isBlockCandidate p.2 isKnown
  blocks : s.recorder.tables.blocks =
    before.tables.blocks ++ s.performed.flatMap fun p => p.1.rows isBlockCandidate p.2

theorem Accounted.setRecorder (h : Accounted isBlockCandidate isKnown before s)
    {recorder : ShareRecorder α} (htables : recorder.tables = s.recorder.tables) :
    Accounted isBlockCandidate isKnown before (s.setRecorder recorder) where
  notifications := h.notifications
  blocks := (congrArg Tables.blocks htables).trans h.blocks

theorem Accounted.persistSharesCore (h : Accounted isBlockCandidate isKnown before s)
    (attempts : ℕ → Attempt) (shares : List α) :
    Accounted isBlockCandidate isKnown before
      (NotifyingRecorder.persistSharesCore isBlockCandidate isKnown attempts shares s).2 where
  notifications := by
    rw [NotifyingRecorder.persistSharesCore, List.flatMap_append, ← h.notifications,
      List.flatMap_singleton]
  blocks := by
    rw [NotifyingRecorder.persistSharesCore, List.flatMap_append, ← List.append_assoc,
      ← h.blocks, List.flatMap_singleton]
    exact blocks_runTx _ _ _

/-- The accounts may be kept before and after an action that keeps them. -/
theorem framed_accounted : Framed
    (fun s after => Accounted isBlockCandidate isKnown before s →
      Accounted isBlockCandidate isKnown before after)
    (fun s after => Accounted isBlockCandidate isKnown before s →
      Accounted isBlockCandidate isKnown before after) where
  refl _ := id
  trans h h' := h' ∘ h
  before h h' := h' ∘ h
  after h h' := h' ∘ h

theorem Accounted.persistShares (h : Accounted isBlockCandidate isKnown before s)
    (fileFailure : Option ℕ) (shares : List α) :
    Accounted isBlockCandidate isKnown before
      (NotifyingRecorder.persistShares isBlockCandidate isKnown attempts fileFailure shares
        s).2 := by
  let kept (s after : NotifyingRecorder α) : Prop :=
    Accounted isBlockCandidate isKnown before s → Accounted isBlockCandidate isKnown before after
  have hframed : Framed kept kept := framed_accounted
  have hcore : Settles (NotifyingRecorder.persistSharesCore isBlockCandidate isKnown attempts
      shares) kept kept fun _ => True := by
    intro s
    have hkept (h : Accounted isBlockCandidate isKnown before s) :=
      h.persistSharesCore attempts shares
    rcases hrun : NotifyingRecorder.persistSharesCore isBlockCandidate isKnown attempts shares s
      with ⟨_ | exception, after⟩
    · rw [hrun] at hkept
      exact hkept
    · rw [hrun] at hkept
      exact ⟨trivial, hkept⟩
  have hfile : Settles (NotifyingRecorder.onExecutePolicyFallback fileFailure shares) kept kept
      fun _ => False := fun s h => h.setRecorder rfl
  have hwait (attempt : ℕ) (s : NotifyingRecorder α) :
      kept s (NotifyingRecorder.waitForRetry attempt s) :=
    fun h => h.setRecorder (waitForRetry_kept attempt s.recorder).1
  have hset (circuit : Circuit) (s : NotifyingRecorder α) :
      kept s (NotifyingRecorder.breaker.setCircuit circuit s) :=
    fun h => h.setRecorder (setCircuit_kept circuit s.recorder).1
  have hpolicy : Settles (NotifyingRecorder.persistShares isBlockCandidate isKnown attempts
      fileFailure shares) _ kept _ :=
    (((hcore.retry hframed hwait retryCount 1).circuitBreaker hframed hset).fallback hframed
      hfile).fallback hframed hfile
  rcases hrun : NotifyingRecorder.persistShares isBlockCandidate isKnown attempts fileFailure
    shares s with ⟨_ | exception, after⟩
  · obtain (hdone | hdone) | hdone := hpolicy.returned hrun
    · exact hdone h
    · exact hdone h
    · exact hdone h
  · exact (hpolicy.thrown hrun).2 h

theorem accounted_recordAll (recorder : ShareRecorder α) (batches : List (Batch α)) :
    Accounted isBlockCandidate isKnown recorder
      (NotifyingRecorder.recordAll isBlockCandidate isKnown attempts recorder batches) := by
  induction batches using List.reverseRecOn with
  | nil => exact ⟨rfl, (List.append_nil _).symm⟩
  | append_singleton batches batch ih =>
      rw [NotifyingRecorder.recordAll, List.foldl_append, ← NotifyingRecorder.recordAll]
      apply Accounted.persistShares _ batch.fileFailure batch.shares
      exact ih.setRecorder rfl

/-- An attempt that is committed has sent the notifications of its rows. -/
theorem notified_of_commits {attempt : Attempt}
    (h : attempt.commits isBlockCandidate shares = true) :
    attempt.notified isBlockCandidate shares isKnown =
      (attempt.rows isBlockCandidate shares).filter isKnown := by
  rw [Attempt.notified, Attempt.rows, if_pos h]
  rw [Attempt.commits] at h
  rw [Attempt.inserted]
  match hfailure : attempt.failure with
  | none => rfl
  | some (.opening, exception) => simp [hfailure] at h
  | some (.statement index, exception) =>
      rw [hfailure] at h
      exact congrArg (List.filter isKnown)
        (List.take_of_length_le (Nat.le_sub_one_of_lt (of_decide_eq_true h)))
  | some (.commit, exception) => simp [hfailure] at h

/-- Of a list, the elements of a kind and more of that kind are not a part. -/
theorem subperm_filter_append_iff {p : α → Bool} {xs ys : List α} (h : ∀ y ∈ ys, p y = true) :
    (xs.filter p ++ ys).Subperm xs ↔ ys = [] := by
  constructor
  · intro hsubperm
    have hlength := (hsubperm.filter p).length_le
    have hself : (xs.filter p).filter p = xs.filter p :=
      List.filter_eq_self.mpr fun _ hmem => (List.mem_filter.mp hmem).2
    rw [List.filter_append, hself, List.filter_eq_self.mpr h, List.length_append] at hlength
    exact List.length_eq_zero_iff.mp (by omega)
  · rintro rfl
    rw [List.append_nil]
    exact List.filter_sublist.subperm

/-- The notifications of attempts are those of their rows, with those of attempts that failed. -/
theorem notified_perm (performed : List (Attempt × List α)) :
    (performed.flatMap fun p => p.1.notified isBlockCandidate p.2 isKnown).Perm
      ((performed.flatMap fun p => p.1.rows isBlockCandidate p.2).filter isKnown ++
        (performed.filter fun p => !p.1.commits isBlockCandidate p.2).flatMap fun p =>
          p.1.notified isBlockCandidate p.2 isKnown) := by
  induction performed with
  | nil => exact .nil
  | cons p performed ih =>
      rw [List.flatMap_cons, List.flatMap_cons, List.filter_append, List.append_assoc]
      by_cases hcommits : p.1.commits isBlockCandidate p.2 = true
      · rw [List.filter_cons_of_neg (by simp [hcommits]), notified_of_commits hcommits]
        exact ih.append_left _
      · have hrows : p.1.rows isBlockCandidate p.2 = [] := if_neg hcommits
        rw [List.filter_cons_of_pos (by simp [hcommits]), List.flatMap_cons, hrows,
          List.filter_nil, List.nil_append]
        refine (ih.append_left _).trans ?_
        rw [← List.append_assoc, ← List.append_assoc]
        exact List.perm_append_comm.append_right _

end accounts

/-- The notifications of any run are for rows that are committed in it, one for each at most, just
if every attempt that fails does so before it has inserted a block of a known pool. -/
theorem notifications_subperm_iff {α : Type*} (isBlockCandidate isKnown : α → Bool)
    (attempts : ℕ → Attempt) (recorder : ShareRecorder α) (batches : List (Batch α)) :
    ∃ rows,
      (recordAll isBlockCandidate attempts recorder batches).tables.blocks =
        recorder.tables.blocks ++ rows ∧
      ((NotifyingRecorder.recordAll isBlockCandidate isKnown attempts recorder
          batches).notifications.Subperm rows ↔
        ∀ p ∈ (NotifyingRecorder.recordAll isBlockCandidate isKnown attempts recorder
            batches).performed,
          p.1.commits isBlockCandidate p.2 = false →
            ∀ share ∈ p.1.inserted isBlockCandidate p.2, isKnown share = false) := by
  have haccounted := @accounted_recordAll _ isBlockCandidate isKnown attempts recorder batches
  rw [← @recorder_recordAll _ isBlockCandidate isKnown]
  refine ⟨_, haccounted.blocks, ?_⟩
  rw [haccounted.notifications, (notified_perm _).subperm_right]
  generalize (NotifyingRecorder.recordAll isBlockCandidate isKnown attempts recorder
    batches).performed = performed
  rw [subperm_filter_append_iff, List.flatMap_eq_nil_iff]
  · simp only [List.mem_filter, Bool.not_eq_true', and_imp, Attempt.notified,
      List.filter_eq_nil_iff, Bool.not_eq_true]
  · intro share hmem
    obtain ⟨p, -, hnotified⟩ := List.mem_flatMap.mp hmem
    exact (List.mem_filter.mp hnotified).2

/-- The commit of a block fails at the first attempt. -/
def commitFailsOnce (n : ℕ) : Attempt :=
  if n = 0 then ⟨1, some (.commit, .db)⟩ else ⟨1, none⟩

/-- A block of a known pool is notified of again when its transaction is made again, and when all
attempts fail it is notified of although it is not in the table. -/
theorem not_notifications_subperm :
    (∀ n, (commitFailsOnce n).IsTransient) ∧
    (NotifyingRecorder.recordAll (· == 5) (· == 5) commitFailsOnce
      ⟨0, 0, .initial, ⟨[], [], []⟩, []⟩ [⟨0, [1, 5], none⟩]).notifications = [5, 5] ∧
    (NotifyingRecorder.recordAll (· == 5) (· == 5) commitFailsOnce
      ⟨0, 0, .initial, ⟨[], [], []⟩, []⟩ [⟨0, [1, 5], none⟩]).recorder.tables.blocks = [5] ∧
    (NotifyingRecorder.recordAll (· == 5) (· == 5) (fun _ => ⟨1, some (.commit, .db)⟩)
      ⟨0, 0, .initial, ⟨[], [], []⟩, []⟩ [⟨0, [1, 5], none⟩]).notifications = [5, 5, 5, 5] ∧
    (NotifyingRecorder.recordAll (· == 5) (· == 5) (fun _ => ⟨1, some (.commit, .db)⟩)
      ⟨0, 0, .initial, ⟨[], [], []⟩, []⟩ [⟨0, [1, 5], none⟩]).recorder.tables.blocks = [] := by
  refine ⟨fun n => ?_, by decide, by decide, by decide, by decide⟩
  rw [Attempt.IsTransient, commitFailsOnce]
  split_ifs <;> simp [RecorderException.isTransient]

end Miningcore.Mining
