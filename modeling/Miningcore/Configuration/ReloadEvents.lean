import Mathlib.Data.List.Basic
import Mathlib.Tactic.Common

/-!
# Changes of the configuration file

A change of the file starts a reload after a delay. A change that comes while a reload is pending
is dropped, also when its file has been read already.

## Implementation notes

Changes are numbered in the order in which they happen. A reload is followed through its delay, the
reading of the file, the comparison and the reset of the flag; a read that fails goes straight to
the reset. Times are in ticks of a hundred nanoseconds, as the clock of the host reports them.
-/

namespace Miningcore.Configuration

/-- How far a reload has come. -/
inductive ReloadPhase where
  | none
  | delaying
  | reading
  | comparing
  | ending
deriving DecidableEq

structure ReloadState where
  lastChange : Int
  reloadPending : Bool
  phase : ReloadPhase
  /-- How many changes have happened. -/
  changes : Nat
  /-- The changes whose handlers have not run. -/
  raised : List Nat
  /-- How many changes had happened when the file was last read. -/
  seen : Nat
deriving DecidableEq

namespace ReloadState

def initial : ReloadState where
  lastChange := 0
  reloadPending := false
  phase := .none
  changes := 0
  raised := []
  seen := 0

/-- 500 milliseconds -/
def debounce : Int := 5000000

/-- The change is ignored. -/
def drops (s : ReloadState) (now : Int) : Bool :=
  s.reloadPending || now - s.lastChange < debounce

def onConfigChanged (s : ReloadState) (now : Int) : ReloadState :=
  if s.drops now then s
  else { s with lastChange := now, reloadPending := true, phase := .delaying }

inductive Step where
  | change
  | handler (change : Nat) (now : Int)
  | timer
  | read (succeeds : Bool)
  | compare
  | reset

/-- A step, where it can be taken. -/
def step (s : ReloadState) : Step → Option ReloadState
  | .change => some { s with changes := s.changes + 1, raised := s.raised ++ [s.changes + 1] }
  | .handler change now =>
      if change ∈ s.raised then
        some { s.onConfigChanged now with raised := s.raised.erase change }
      else none
  | .timer => if s.phase = .delaying then some { s with phase := .reading } else none
  | .read succeeds =>
      if s.phase = .reading then
        some { s with seen := s.changes, phase := if succeeds then .comparing else .ending }
      else none
  | .compare => if s.phase = .comparing then some { s with phase := .ending } else none
  | .reset =>
      if s.phase = .ending then some { s with phase := .none, reloadPending := false } else none

def run (s : ReloadState) (steps : List Step) : Option ReloadState := steps.foldlM step s

/-- No reload is pending or running, and no change waits for its handler. -/
def Quiet (s : ReloadState) : Prop := s.reloadPending = false ∧ s.phase = .none ∧ s.raised = []

/-- The file is still to be read. -/
def readToCome (s : ReloadState) : Bool := s.phase = .delaying || s.phase = .reading

/-- A step that ignores a change that happened after the last read, with no read to come. -/
def loses (s : ReloadState) : Step → Prop
  | .handler change now => s.drops now ∧ ¬s.readToCome ∧ s.seen < change
  | _ => False

/-- No step of a run loses a change. -/
def LosesNone : ReloadState → List Step → Prop
  | _, [] => True
  | s, a :: steps => ¬s.loses a ∧ ∀ s', s.step a = some s' → LosesNone s' steps

theorem run_cons (s : ReloadState) (a : Step) (steps : List Step) :
    s.run (a :: steps) = (s.step a).bind fun s' => s'.run steps := by
  rw [run, List.foldlM_cons]
  rfl

theorem run_append (s : ReloadState) (steps more : List Step) :
    s.run (steps ++ more) = (s.run steps).bind fun s' => s'.run more := by
  rw [run, List.foldlM_append]
  rfl

/-! ### No change is lost -/

/-- Every change that was not seen has its handler or the read of the file before it. -/
structure Awaited (s : ReloadState) : Prop where
  pending : s.reloadPending = true ↔ s.phase ≠ .none
  seen : s.seen ≤ s.changes
  raised : ∀ n ∈ s.raised, n ≤ s.changes
  awaited : s.readToCome = false → ∀ n, s.seen < n → n ≤ s.changes → n ∈ s.raised

theorem awaited_initial : Awaited initial where
  pending := by decide
  seen := Nat.le_refl _
  raised := by
    intro n hn
    cases hn
  awaited := by
    intro _ n hlow hhigh
    exact absurd (Nat.lt_of_lt_of_le hlow hhigh) (Nat.lt_irrefl 0)

/-- A handler takes no change away that is still to be seen. -/
theorem Awaited.onConfigChanged {s : ReloadState} (h : Awaited s) (now : Int) {change : Nat}
    (hlate : ¬s.loses (.handler change now)) :
    Awaited { s.onConfigChanged now with raised := s.raised.erase change } := by
  have hraised : ∀ n ∈ s.raised.erase change, n ≤ s.changes :=
    fun n hn => h.raised n (List.mem_of_mem_erase hn)
  unfold ReloadState.onConfigChanged
  split
  · rename_i hdrops
    refine ⟨h.pending, h.seen, hraised, ?_⟩
    intro hread n hlow hhigh
    have hread' : s.readToCome = false := hread
    have hold : change ≤ s.seen :=
      Nat.le_of_not_lt fun hlt => hlate ⟨hdrops, by simp [hread'], hlt⟩
    have hne : n ≠ change := Nat.ne_of_gt (Nat.lt_of_le_of_lt hold hlow)
    exact (List.mem_erase_of_ne hne).mpr (h.awaited hread' n hlow hhigh)
  · refine ⟨by simp, h.seen, hraised, ?_⟩
    intro hread
    cases hread

theorem Awaited.change {s : ReloadState} (h : Awaited s) :
    Awaited { s with changes := s.changes + 1, raised := s.raised ++ [s.changes + 1] } where
  pending := h.pending
  seen := Nat.le_succ_of_le h.seen
  raised := by
    intro n hn
    obtain hold | hnew := List.mem_append.mp hn
    · exact Nat.le_succ_of_le (h.raised n hold)
    · exact Nat.le_of_eq (List.mem_singleton.mp hnew)
  awaited := by
    intro hread n hlow hhigh
    obtain hold | rfl := Nat.le_or_eq_of_le_succ hhigh
    · exact List.mem_append_left _ (h.awaited hread n hlow hold)
    · exact List.mem_append_right _ List.mem_cons_self

theorem Awaited.read {s : ReloadState} (h : Awaited s) (hphase : s.phase = .reading)
    (succeeds : Bool) :
    Awaited { s with seen := s.changes, phase := if succeeds then .comparing else .ending } where
  pending := by
    have hpending : s.reloadPending = true := h.pending.mpr (by simp [hphase])
    cases succeeds <;> simp [hpending]
  seen := Nat.le_refl _
  raised := h.raised
  awaited := by
    intro _ n hlow hhigh
    exact absurd (Nat.lt_of_lt_of_le hlow hhigh) (Nat.lt_irrefl _)

/-- A reload goes on after its file is read. -/
theorem Awaited.goesOn {s : ReloadState} (h : Awaited s) (hread : s.readToCome = false)
    {phase : ReloadPhase} {pending : Bool} (hpending : pending = true ↔ phase ≠ .none) :
    Awaited { s with phase := phase, reloadPending := pending } where
  pending := hpending
  seen := h.seen
  raised := h.raised
  awaited := fun _ => h.awaited hread

theorem eq_of_step {p : Prop} [Decidable p] {s s' : ReloadState}
    (h : (if p then some s else none) = some s') : p ∧ s = s' := by
  obtain ⟨hp, hs⟩ := Option.ite_none_right_eq_some.mp h
  exact ⟨hp, Option.some_inj.mp hs⟩

theorem Awaited.step {s s' : ReloadState} {a : Step} (h : Awaited s) (hlate : ¬s.loses a)
    (hstep : s.step a = some s') : Awaited s' := by
  cases a with
  | change =>
      obtain rfl := Option.some_inj.mp hstep
      exact h.change
  | handler change now =>
      obtain ⟨-, rfl⟩ := eq_of_step hstep
      exact h.onConfigChanged now hlate
  | timer =>
      obtain ⟨hphase, rfl⟩ := eq_of_step hstep
      refine ⟨?_, h.seen, h.raised, ?_⟩
      · rw [h.pending, hphase]
        simp
      · intro hread
        cases hread
  | read succeeds =>
      obtain ⟨hphase, rfl⟩ := eq_of_step hstep
      exact h.read hphase succeeds
  | compare =>
      obtain ⟨hphase, rfl⟩ := eq_of_step hstep
      have hread : s.readToCome = false := by simp [readToCome, hphase]
      have hpending : s.reloadPending = true := h.pending.mpr (by simp [hphase])
      exact h.goesOn hread (by simp [hpending])
  | reset =>
      obtain ⟨hphase, rfl⟩ := eq_of_step hstep
      have hread : s.readToCome = false := by simp [readToCome, hphase]
      exact h.goesOn hread (by simp)

theorem Awaited.run {s s' : ReloadState} {steps : List Step} (h : Awaited s)
    (hlate : LosesNone s steps) (hrun : s.run steps = some s') : Awaited s' := by
  induction steps generalizing s with
  | nil =>
      obtain rfl : s = s' := Option.some_inj.mp hrun
      exact h
  | cons a steps ih =>
      rw [run_cons] at hrun
      obtain ⟨t, hstep, hrun⟩ := Option.bind_eq_some_iff.mp hrun
      exact ih (h.step hlate.1 hstep) (hlate.2 t hstep) hrun

/-- Between reloads, every change has been read. -/
theorem Awaited.seen_eq {s : ReloadState} (h : Awaited s) (hquiet : s.Quiet) :
    s.seen = s.changes := by
  obtain ⟨-, hphase, hraised⟩ := hquiet
  have hread : s.readToCome = false := by
    rw [readToCome, hphase]
    rfl
  refine Nat.le_antisymm h.seen (Nat.le_of_not_lt ?_)
  intro hlt
  have hmem := h.awaited hread s.changes hlt (Nat.le_refl _)
  rw [hraised] at hmem
  cases hmem

/-! ### A change is lost -/

/-- Handlers that run at a time at which changes are dropped leave nothing but the rest. -/
theorem exists_run_handlers {s : ReloadState} {now : Int} (hdrops : s.drops now) :
    ∃ steps, s.run steps = some { s with raised := [] } := by
  obtain ⟨raised, hraised⟩ : ∃ raised, s.raised = raised := ⟨_, rfl⟩
  induction raised generalizing s with
  | nil =>
      refine ⟨[], ?_⟩
      rw [← hraised]
      rfl
  | cons change raised ih =>
      have hstep : s.step (.handler change now) = some { s with raised := raised } := by
        rw [step, if_pos (by simp [hraised]), ReloadState.onConfigChanged, if_pos hdrops, hraised,
          List.erase_cons_head]
      have hdrops' : ({ s with raised := raised } : ReloadState).drops now := hdrops
      obtain ⟨steps, hsteps⟩ := ih hdrops' rfl
      refine ⟨.handler change now :: steps, ?_⟩
      rw [run_cons, hstep]
      exact hsteps

/-- A reload whose file is read can end with no further change. -/
theorem exists_run_quiet {s : ReloadState} (h : s.reloadPending = true ↔ s.phase ≠ .none)
    (hread : s.readToCome = false) (hraised : s.raised = []) :
    ∃ steps s', s.run steps = some s' ∧ s'.Quiet ∧ s'.seen = s.seen ∧ s'.changes = s.changes := by
  cases hphase : s.phase with
  | none =>
      have hpending : s.reloadPending = false := by
        rw [Bool.eq_false_iff, Ne, h, hphase]
        exact fun hne => hne rfl
      exact ⟨[], s, rfl, ⟨hpending, hphase, hraised⟩, rfl, rfl⟩
  | delaying => simp [readToCome, hphase] at hread
  | reading => simp [readToCome, hphase] at hread
  | comparing =>
      refine ⟨[.compare, .reset], { s with phase := .none, reloadPending := false }, ?_,
        ⟨rfl, rfl, hraised⟩, rfl, rfl⟩
      simp [step, hphase, run]
  | ending =>
      refine ⟨[.reset], { s with phase := .none, reloadPending := false }, ?_,
        ⟨rfl, rfl, hraised⟩, rfl, rfl⟩
      simp [step, hphase, run]

/-- A change that is dropped after the read can stay unread. -/
theorem exists_run_lost {s : ReloadState} (h : Awaited s) {change : Nat} {now : Int}
    (hmem : change ∈ s.raised) (hloses : s.loses (.handler change now)) :
    ∃ steps s', s.run steps = some s' ∧ s'.Quiet ∧ s'.seen < s'.changes := by
  obtain ⟨hdrops, hread, hlate⟩ := hloses
  obtain ⟨handlers, hhandlers⟩ := exists_run_handlers hdrops
  have hread' : ({ s with raised := [] } : ReloadState).readToCome = false := by
    simpa [readToCome] using hread
  obtain ⟨rest, s', hrest, hquiet, hseen, hchanges⟩ :=
    exists_run_quiet (s := { s with raised := [] }) h.pending hread' rfl
  refine ⟨handlers ++ rest, s', ?_, hquiet, ?_⟩
  · rw [run_append, hhandlers]
    exact hrest
  · rw [hseen, hchanges]
    exact Nat.lt_of_lt_of_le hlate (h.raised change hmem)

/-- A run that loses no change has read them all whenever it is quiet; with the first step that
loses one it can become quiet without having read it. -/
theorem changes_read {steps : List Step} {s : ReloadState} (hrun : initial.run steps = some s)
    (hnone : LosesNone initial steps) :
    (s.Quiet → s.seen = s.changes) ∧
      ∀ change now, change ∈ s.raised → s.loses (.handler change now) →
        ∃ more s', s.run more = some s' ∧ s'.Quiet ∧ s'.seen < s'.changes := by
  have hawaited := awaited_initial.run hnone hrun
  exact ⟨hawaited.seen_eq, fun _ _ hmem hloses => exists_run_lost hawaited hmem hloses⟩

theorem losesNone_cons {s s' : ReloadState} {a : Step} {steps : List Step} (hkeeps : ¬s.loses a)
    (hstep : s.step a = some s') (h : LosesNone s' steps) : LosesNone s (a :: steps) := by
  refine ⟨hkeeps, ?_⟩
  intro t ht
  rw [hstep, Option.some_inj] at ht
  rwa [← ht]

/-- One change, seen by its reload. -/
def changedOnce : List Step := [.change, .handler 1 10000000, .timer, .read true, .compare, .reset]

/-- A change whose handler starts the reload is not lost. -/
theorem losesNone_changedOnce : LosesNone initial changedOnce := by
  refine losesNone_cons id rfl (losesNone_cons ?_ rfl (losesNone_cons id rfl
    (losesNone_cons id rfl (losesNone_cons id rfl (losesNone_cons id rfl trivial)))))
  rintro ⟨hdrops, -⟩
  exact absurd hdrops (by decide)

theorem changes_read_changedOnce :
    ∃ s, initial.run changedOnce = some s ∧ s.Quiet ∧ s.seen = s.changes := by
  have hrun : initial.run changedOnce =
      some { initial with lastChange := 10000000, changes := 1, seen := 1 } := rfl
  have hquiet : ({ initial with lastChange := 10000000, changes := 1, seen := 1 } :
      ReloadState).Quiet := ⟨rfl, rfl, rfl⟩
  exact ⟨_, hrun, hquiet, (changes_read hrun losesNone_changedOnce).1 hquiet⟩

/-- A change between the read of the file and the reset of the flag. -/
def changedTwice : List Step :=
  [.change, .handler 1 10000000, .timer, .read true, .change, .handler 2 15100000, .compare, .reset]

theorem not_seen_changedTwice :
    ¬∀ (steps : List Step) (s : ReloadState), initial.run steps = some s → s.Quiet →
      s.seen = s.changes := by
  intro h
  have hseen := h changedTwice { initial with lastChange := 10000000, changes := 2, seen := 1 } rfl
    ⟨rfl, rfl, rfl⟩
  cases hseen

end ReloadState

end Miningcore.Configuration
