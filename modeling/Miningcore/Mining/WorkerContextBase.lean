import Miningcore.Stratum.Submission
import Mathlib.Algebra.Group.Nat.Defs
import Mathlib.Logic.Function.Basic
import Mathlib.Tactic.Common

/-!
# The contexts of workers

A new difficulty waits until the worker is told of it. The one it replaces is kept
as the previous one.

## Implementation notes

A job is referred to by its number in the order in which all of them are created,
so that it stays the same job in the states after.
-/

namespace Miningcore.Mining

structure WorkerContextBase extends WorkerDifficulty where
  pendingDifficulty : Option ℚ := none

namespace WorkerContextBase

variable (context : WorkerContextBase)

def enqueueNewDifficulty (difficulty : ℚ) : WorkerContextBase :=
  { context with pendingDifficulty := some difficulty }

def setDifficulty (difficulty : ℚ) : WorkerContextBase :=
  { context with previousDifficulty := some context.difficulty, difficulty }

def applyPendingDifficulty : Bool × WorkerContextBase :=
  match context.pendingDifficulty with
  | some difficulty => (true, { context.setDifficulty difficulty with pendingDifficulty := none })
  | none => (false, context)

/-- `OnVarDiffUpdateAsync` of the base class, for a difficulty that `TryApplyNewDiff` has found at
a time. -/
def onVarDiffUpdate (updated : ℕ) (newDiff : ℚ) : WorkerContextBase :=
  { context with varDiffLastUpdate := some updated }.enqueueNewDifficulty newDiff

/-- The states of a worker from a change of its difficulty until the next. -/
inductive SinceChange (previous current : ℚ) : WorkerContextBase → Prop where
  | changed (context : WorkerContextBase) (updated : ℕ) (h : context.difficulty = previous) :
      SinceChange previous current
        (context.onVarDiffUpdate updated current).applyPendingDifficulty.2
  | enqueued {context : WorkerContextBase} (h : SinceChange previous current context)
      (updated : ℕ) (newDiff : ℚ) :
      SinceChange previous current (context.onVarDiffUpdate updated newDiff)
  | unchanged {context : WorkerContextBase} (h : SinceChange previous current context)
      (hnone : context.applyPendingDifficulty.1 = false) :
      SinceChange previous current context.applyPendingDifficulty.2

variable {context}

/-- The previous difficulty stays until the next change. -/
theorem SinceChange.difficulties {previous current : ℚ}
    (h : SinceChange previous current context) :
    context.difficulty = current ∧ context.previousDifficulty = some previous ∧
      context.varDiffLastUpdate.isSome := by
  induction h with
  | changed context updated h => exact ⟨rfl, congrArg some h, rfl⟩
  | enqueued _ updated newDiff ih => exact ⟨ih.1, ih.2.1, rfl⟩
  | @unchanged context _ hnone ih =>
      rw [applyPendingDifficulty] at hnone ⊢
      split at hnone
      · cases hnone
      · exact ih

end WorkerContextBase

/-!
## The jobs of the workers of a pool

Every connection has a job of its own made out of the current one, and a queue of
the last of them. A submission names one of the queue.
-/

/-- `Interlocked.Increment` of the extranonce of a job, which is an `int` and starts again behind
the largest one: the extranonce of a worker job, and what it leaves. -/
def nextExtraNonce (extraNonce : ℕ) : ℕ × ℕ :=
  if extraNonce + 1 < 2 ^ 31 then (extraNonce + 1, extraNonce + 1) else (2 ^ 31, 0)

theorem getElem?_of_isPrefix {α : Type*} {first second : List α} (h : first <+: second) {i : ℕ}
    {a : α} (hfirst : first[i]? = some a) : second[i]? = some a := by
  obtain ⟨rest, rfl⟩ := h
  obtain ⟨hlt, -⟩ := List.getElem?_eq_some_iff.mp hfirst
  rw [List.getElem?_append_left hlt, hfirst]

/-- As many preparations of one job as there are in front of the next one. -/
theorem nextExtraNonce_mod (count : ℕ) :
    nextExtraNonce (count % 2 ^ 31) = (count % 2 ^ 31 + 1, (count + 1) % 2 ^ 31) := by
  rw [nextExtraNonce]
  split
  · rw [Prod.mk.injEq]
    exact ⟨rfl, by omega⟩
  · rw [Prod.mk.injEq]
    exact ⟨by omega, by omega⟩

/-- The jobs that were created, and the queues of the connections. -/
structure WorkerJobs (ω : Type*) where
  created : List ω := []
  validJobs : String → List ℕ := fun _ => []

namespace WorkerJobs

variable {ω : Type*} (jobs : WorkerJobs ω)

/-- A new job goes to the end of a queue, which keeps the last ones. -/
def addJob (maxActiveJobs : ℕ) (connectionId : String) (job : ω) : WorkerJobs ω :=
  let queue := jobs.validJobs connectionId ++ [jobs.created.length]
  { created := jobs.created ++ [job]
    validJobs := Function.update jobs.validJobs connectionId
      (queue.drop (queue.length - maxActiveJobs)) }

/-- A new job that goes to no queue. -/
def addUnsent (job : ω) : WorkerJobs ω := { jobs with created := jobs.created ++ [job] }

/-- The first job of a queue that has an id. -/
def getJob (hasId : ℕ → ω → Bool) (connectionId : String) : Option (ℕ × ω) :=
  (jobs.validJobs connectionId).findSome? fun reference =>
    (jobs.created[reference]?).bind fun job =>
      if hasId reference job then some (reference, job) else none

variable {jobs}

theorem of_getJob {hasId : ℕ → ω → Bool} {connectionId : String} {reference : ℕ} {job : ω}
    (h : jobs.getJob hasId connectionId = some (reference, job)) :
    jobs.created[reference]? = some job ∧ hasId reference job := by
  obtain ⟨found, -, hfound⟩ := List.exists_of_findSome?_eq_some h
  obtain ⟨job', hjob, hid⟩ := Option.bind_eq_some_iff.mp hfound
  split at hid
  · rename_i hhas
    cases hid
    exact ⟨hjob, hhas⟩
  · cases hid

/-- The job is one of the queue. -/
theorem mem_validJobs_of_getJob {hasId : ℕ → ω → Bool} {connectionId : String} {reference : ℕ}
    {job : ω} (h : jobs.getJob hasId connectionId = some (reference, job)) :
    reference ∈ jobs.validJobs connectionId := by
  obtain ⟨found, hmem, hfound⟩ := List.exists_of_findSome?_eq_some h
  obtain ⟨job', -, hid⟩ := Option.bind_eq_some_iff.mp hfound
  split at hid
  · cases hid
    exact hmem
  · cases hid

theorem created_prefix_addJob (maxActiveJobs : ℕ) (connectionId : String) (job : ω) :
    jobs.created <+: (jobs.addJob maxActiveJobs connectionId job).created :=
  List.prefix_append _ _

/-- A queue gets no other job than the new one. -/
theorem mem_validJobs_addJob {maxActiveJobs : ℕ} {connectionId connectionId' : String} {job : ω}
    {reference : ℕ}
    (h : reference ∈ (jobs.addJob maxActiveJobs connectionId job).validJobs connectionId') :
    reference ∈ jobs.validJobs connectionId' ∨
      connectionId' = connectionId ∧ reference = jobs.created.length := by
  rw [addJob] at h
  dsimp only at h
  by_cases hsame : connectionId' = connectionId
  · subst hsame
    rw [Function.update_self] at h
    have hmem := List.mem_of_mem_drop h
    rw [List.mem_append, List.mem_singleton] at hmem
    exact hmem.imp_right fun heq => ⟨rfl, heq⟩
  · rw [Function.update_of_ne hsame] at h
    exact Or.inl h

/-- A reference stays with its job. -/
theorem job_unique {first second : WorkerJobs ω}
    (h : first.created <+: second.created ∨ second.created <+: first.created) {reference : ℕ}
    {job job' : ω} (hfirst : first.created[reference]? = some job)
    (hsecond : second.created[reference]? = some job') : job = job' := by
  obtain hgrows | hgrows := h
  · exact Option.some.inj ((getElem?_of_isPrefix hgrows hfirst).symm.trans hsecond)
  · exact Option.some.inj (hfirst.symm.trans (getElem?_of_isPrefix hgrows hsecond))

end WorkerJobs

end Miningcore.Mining
