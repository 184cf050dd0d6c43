import Miningcore.Foundation.FloatingPoint
import Mathlib.Data.List.Chain

/-!
# The variable difficulty of a worker

A share updates the difficulty of its worker, and a sweep does it for a worker
that sends none. Both measure the average time between shares and look for the
difficulty at which it is the target, and both wait for some time after the last
change.

## Implementation notes

Times are ticks of 100 ns since the Unix epoch. The ring buffer is the list of its
elements, of which a full one drops the first. A sweep that finds the context
locked returns at once and is left out.
-/

namespace Miningcore.VarDiff

open Foundation FloatingPoint

def bufferSize : ℕ := 10

/-- The idle update does not miss a cycle for a fraction of a second. -/
def safetyMargin : FloatingPoint := finite 1

/-- `double.MaxValue` -/
def maxValue : FloatingPoint := finite ((2 ^ 53 - 1) * 2 ^ 971)

structure VarDiffConfig where
  minDiff : FloatingPoint
  maxDiff : Option FloatingPoint
  maxDelta : Option FloatingPoint
  targetTime : FloatingPoint
  retargetTime : FloatingPoint
  variancePercent : FloatingPoint
deriving DecidableEq

structure VarDiffContext where
  lastTs : Option FloatingPoint
  lastRetarget : FloatingPoint
  timeBuffer : Option (List FloatingPoint)
  created : ℕ
  lastUpdate : Option ℕ
deriving DecidableEq

namespace VarDiffContext

/-- The context of a new connection. -/
def initial (created : ℕ) : VarDiffContext where
  lastTs := none
  lastRetarget := finite 0
  timeBuffer := none
  created := created
  lastUpdate := none

end VarDiffContext

/-- A full buffer drops its first element. -/
def pushBack (buffer : List FloatingPoint) (x : FloatingPoint) : List FloatingPoint :=
  (buffer ++ [x]).drop (buffer.length + 1 - bufferSize)

variable (rounding : Rounding)

def toUnixTimeMilliseconds (time : ℕ) : ℕ := time / 10000

def toUnixSeconds (time : ℕ) : FloatingPoint :=
  ofRat rounding ((toUnixTimeMilliseconds time : ℚ) / 1000)

/-- The time since the last update, or since the worker connected. -/
def VarDiffContext.elapsed (context : VarDiffContext) (ts : FloatingPoint) : FloatingPoint :=
  match context.lastTs with
  | some lastTs => sub rounding ts lastTs
  | none => sub rounding ts (toUnixSeconds rounding context.created)

namespace VarDiffConfig

variable (options : VarDiffConfig)

def upperLimit : FloatingPoint :=
  options.maxDiff.getD (FloatingPoint.max options.minDiff maxValue)

def variance : FloatingPoint :=
  mul rounding options.targetTime (div rounding options.variancePercent (finite 100))

/-- The shares of the worker come as often as they should. -/
def inBand (avg : FloatingPoint) : Bool :=
  let variance := options.variance rounding
  let tMin := sub rounding options.targetTime variance
  let tMax := add rounding options.targetTime variance
  le tMin avg && le avg tMax

/-- No change by more than the largest one that is configured. -/
def limitDelta (newDiff oldDiff : FloatingPoint) : FloatingPoint :=
  match options.maxDelta with
  | none => newDiff
  | some maxDelta =>
      if lt (finite 0) maxDelta then
        let delta := FloatingPoint.abs (sub rounding newDiff oldDiff)
        if lt maxDelta delta then
          if lt oldDiff newDiff then sub rounding newDiff (sub rounding delta maxDelta)
          else if lt newDiff oldDiff then add rounding newDiff (sub rounding delta maxDelta)
          else newDiff
        else newDiff
      else newDiff

/-- Clamp to the valid range. -/
def clamp (newDiff : FloatingPoint) : FloatingPoint :=
  let newDiff := if lt newDiff options.minDiff then options.minDiff else newDiff
  if lt options.upperLimit newDiff then options.upperLimit else newDiff

/-- The new difficulty and the context after it, when it is another one. `updated` is the clock
when it is read again. -/
def tryApplyNewDiff (newDiff oldDiff ts : FloatingPoint) (context : VarDiffContext)
    (updated : ℕ) : Option FloatingPoint × VarDiffContext :=
  let newDiff := options.clamp (options.limitDelta rounding newDiff oldDiff)
  if !lt newDiff oldDiff && !lt oldDiff newDiff then (none, context)
  else
    (some newDiff, { context with
      lastRetarget := ts
      lastUpdate := some updated
      timeBuffer := context.timeBuffer.map fun _ => [] })

/-- The update for a share, at a time and with the difficulty of the worker then. -/
def update (difficulty : FloatingPoint) (now updated : ℕ) (context : VarDiffContext) :
    Option FloatingPoint × VarDiffContext :=
  let ts := toUnixSeconds rounding now
  match context.lastTs with
  | some lastTs =>
      let timeDelta := sub rounding ts lastTs
      let buffer := context.timeBuffer.getD []
      let timeTotal := add rounding (sum rounding buffer) timeDelta
      let avg := div rounding timeTotal (finite (buffer.length + 1))
      let context := { context with
        timeBuffer := some (pushBack buffer timeDelta)
        lastTs := some ts }
      if lt (sub rounding ts context.lastRetarget) options.retargetTime ||
          options.inBand rounding avg then (none, context)
      else
        let newDiff := div rounding (mul rounding difficulty options.targetTime) avg
        options.tryApplyNewDiff rounding newDiff difficulty ts context updated
  | none => (none, { context with
      lastRetarget := ts
      lastTs := some ts })

/-- The update of the sweep. -/
def idleUpdate (difficulty : FloatingPoint) (now updated : ℕ) (context : VarDiffContext) :
    Option FloatingPoint × VarDiffContext :=
  let ts := toUnixSeconds rounding now
  let timeDelta := add rounding (context.elapsed rounding ts) safetyMargin
  if lt timeDelta options.retargetTime then (none, context)
  else
    let context := { context with lastTs := some ts }
    let buffer := context.timeBuffer.getD []
    let timeTotal := add rounding (sum rounding buffer) (sub rounding timeDelta safetyMargin)
    let avg := div rounding timeTotal (finite (buffer.length + 1))
    let newDiff := div rounding (mul rounding difficulty options.targetTime) avg
    options.tryApplyNewDiff rounding newDiff difficulty ts context updated

end VarDiffConfig

end Miningcore.VarDiff

/-!
# The time between two changes of difficulty

The update for a share waits for the retarget time since the last change, the
sweep waits for it since the last update of either kind, less a margin. No update
is before the last change, so two changes are always so far apart.
-/

namespace Miningcore.VarDiff

open Foundation FloatingPoint

/-- An update, the time since the one before it, the difficulty of the worker then, and the time
until the clock is read again. -/
structure Call where
  wait : ℕ
  idle : Bool
  difficulty : FloatingPoint
  lag : ℕ
deriving DecidableEq

/-- A worker, and the times at which its difficulty was changed. -/
structure Worker where
  clock : ℕ
  context : VarDiffContext
  changes : List FloatingPoint
deriving DecidableEq

variable (rounding : Rounding) (options : VarDiffConfig)

def Call.perform (call : Call) (now : ℕ) (context : VarDiffContext) :
    Option FloatingPoint × VarDiffContext :=
  if call.idle then options.idleUpdate rounding call.difficulty now (now + call.lag) context
  else options.update rounding call.difficulty now (now + call.lag) context

namespace Worker

def connected (created : ℕ) : Worker where
  clock := created
  context := .initial created
  changes := []

def step (worker : Worker) (call : Call) : Worker :=
  let now := worker.clock + call.wait
  let result := call.perform rounding options now worker.context
  { clock := now + call.lag
    context := result.2
    changes := worker.changes ++ result.1.toList.map fun _ => toUnixSeconds rounding now }

def run (created : ℕ) (calls : List Call) : Worker :=
  calls.foldl (step rounding options) (connected created)

end Worker

/-- The retarget time is between two changes, less the margin. -/
def SpacedBy (earlier later : FloatingPoint) : Prop :=
  lt (add rounding (sub rounding later earlier) safetyMargin) options.retargetTime = false

/-- What an update at a time does to the context. -/
inductive Outcome (ts : FloatingPoint) (context : VarDiffContext) :
    Option FloatingPoint × VarDiffContext → Prop where
  | kept : Outcome ts context (none, context)
  | seen (after : VarDiffContext) (hts : after.lastTs = some ts)
      (hretarget : after.lastRetarget = context.lastRetarget) : Outcome ts context (none, after)
  | initialised (after : VarDiffContext) (hfirst : context.lastTs = none)
      (hts : after.lastTs = some ts) (hretarget : after.lastRetarget = ts) :
      Outcome ts context (none, after)
  | changed (newDiff : FloatingPoint) (after : VarDiffContext) (hts : after.lastTs = some ts)
      (hretarget : after.lastRetarget = ts)
      (hwaited : ∀ lastTs ∈ context.lastTs, SpacedBy rounding options lastTs ts ∨
        lt (sub rounding ts context.lastRetarget) options.retargetTime = false) :
      Outcome ts context (some newDiff, after)

section outcome

variable {rounding options} {ts : FloatingPoint} {context seen : VarDiffContext}

/-- An update that has waited changes the difficulty or has only been seen. -/
theorem outcome_tryApplyNewDiff (newDiff oldDiff : FloatingPoint) (updated : ℕ)
    (hts : seen.lastTs = some ts) (hretarget : seen.lastRetarget = context.lastRetarget)
    (hwaited : ∀ lastTs ∈ context.lastTs, SpacedBy rounding options lastTs ts ∨
      lt (sub rounding ts context.lastRetarget) options.retargetTime = false) :
    Outcome rounding options ts context
      (options.tryApplyNewDiff rounding newDiff oldDiff ts seen updated) := by
  rw [VarDiffConfig.tryApplyNewDiff]
  split
  · exact .seen seen hts hretarget
  · exact .changed _ _ hts rfl hwaited

theorem outcome_update (difficulty : FloatingPoint) (now updated : ℕ) (context : VarDiffContext) :
    Outcome rounding options (toUnixSeconds rounding now) context
      (options.update rounding difficulty now updated context) := by
  rw [VarDiffConfig.update]
  dsimp only
  split
  · split
    · exact .seen _ rfl rfl
    · rename_i hwaited
      rw [Bool.or_eq_true, not_or, Bool.not_eq_true] at hwaited
      exact outcome_tryApplyNewDiff _ _ _ rfl rfl fun _ _ => Or.inr hwaited.1
  · rename_i hfirst
    exact .initialised _ hfirst rfl rfl

theorem outcome_idleUpdate (difficulty : FloatingPoint) (now updated : ℕ)
    (context : VarDiffContext) :
    Outcome rounding options (toUnixSeconds rounding now) context
      (options.idleUpdate rounding difficulty now updated context) := by
  rw [VarDiffConfig.idleUpdate]
  dsimp only
  split
  · exact .kept
  · rename_i hwaited
    refine outcome_tryApplyNewDiff _ _ _ rfl rfl fun lastTs hlast => Or.inl ?_
    rw [VarDiffContext.elapsed, Option.mem_def.mp hlast, Bool.not_eq_true] at hwaited
    exact hwaited

theorem outcome_perform (rounding : Rounding) (options : VarDiffConfig) (call : Call) (now : ℕ)
    (context : VarDiffContext) :
    Outcome rounding options (toUnixSeconds rounding now) context
      (call.perform rounding options now context) := by
  rw [Call.perform]
  split
  · exact outcome_idleUpdate _ _ _ _
  · exact outcome_update _ _ _ _

end outcome

section times

variable {rounding : Rounding} {options : VarDiffConfig}

/-- The clock in seconds, as a number of the format. -/
def seconds (rounding : Rounding) (time : ℕ) : ℚ :=
  rounding.round ((toUnixTimeMilliseconds time : ℚ) / 1000)

theorem seconds_mono (rounding : Rounding) {time later : ℕ} (h : time ≤ later) :
    seconds rounding time ≤ seconds rounding later := by
  apply rounding.mono
  have hms : (toUnixTimeMilliseconds time : ℚ) ≤ toUnixTimeMilliseconds later := by
    exact_mod_cast Nat.div_le_div_right h
  linarith

theorem seconds_nonneg (rounding : Rounding) (time : ℕ) : 0 ≤ seconds rounding time := by
  rw [← rounding.round_zero]
  apply rounding.mono
  exact div_nonneg (Nat.cast_nonneg _) (by norm_num)

/-- A margin is not lost when times are rounded. -/
theorem le_round_add_margin {elapsed : ℚ} (h : rounding.round elapsed = elapsed) :
    elapsed ≤ rounding.round (elapsed + 1) := by
  calc elapsed = rounding.round elapsed := h.symm
    _ ≤ rounding.round (elapsed + 1) := rounding.mono (by linarith)

theorem spacedBy_finite {earlier later : ℚ} :
    SpacedBy rounding options (finite earlier) (finite later) ↔
      lt (finite (rounding.round (rounding.round (later - earlier) + 1)))
        options.retargetTime = false := by
  rw [SpacedBy, sub_finite]
  rfl

/-- In exact numbers, the times are apart by the retarget time less the margin. -/
theorem spacedBy_exact_iff {earlier later retargetTime : ℚ}
    (h : options.retargetTime = finite retargetTime) :
    SpacedBy .exact options (finite earlier) (finite later) ↔
      retargetTime - 1 ≤ later - earlier := by
  have hround (x : ℚ) : Rounding.exact.round x = x := rfl
  rw [spacedBy_finite, h, lt_finite, decide_eq_false_iff_not, not_lt, hround, hround]
  exact sub_le_iff_le_add.symm

/-- Times that are farther apart are spaced if nearer ones are. -/
theorem SpacedBy.mono {earlier middle later : ℚ} (hle : earlier ≤ middle)
    (h : SpacedBy rounding options (finite middle) (finite later)) :
    SpacedBy rounding options (finite earlier) (finite later) := by
  rw [spacedBy_finite] at h ⊢
  refine lt_eq_false_mono h (rounding.mono ?_)
  have hround := rounding.mono (show later - middle ≤ later - earlier by linarith)
  linarith

/-- Times that are apart without the margin are apart with it. -/
theorem spacedBy_of_sub {earlier later : ℚ}
    (h : lt (sub rounding (finite later) (finite earlier)) options.retargetTime = false) :
    SpacedBy rounding options (finite earlier) (finite later) := by
  rw [spacedBy_finite]
  rw [sub_finite] at h
  exact lt_eq_false_mono h (le_round_add_margin (rounding.round_round _))

end times

/-- No update is before the last change of difficulty, and no change too soon after another. -/
structure Timed (worker : Worker) : Prop where
  times : ∃ retarget, worker.context.lastRetarget = finite retarget ∧
    retarget ≤ seconds rounding worker.clock ∧
      ∀ lastTs ∈ worker.context.lastTs, ∃ last, lastTs = finite last ∧ retarget ≤ last ∧
        last ≤ seconds rounding worker.clock
  changed : ∀ ts ∈ worker.changes.getLast?,
    worker.context.lastTs.isSome ∧ worker.context.lastRetarget = ts
  spaced : worker.changes.IsChain (SpacedBy rounding options)

section runs

variable {rounding options} {worker : Worker}

theorem timed_connected (created : ℕ) : Timed rounding options (.connected created) where
  times := ⟨0, rfl, seconds_nonneg rounding created, fun lastTs hlast => by cases hlast⟩
  changed ts hts := by cases hts
  spaced := List.isChain_nil

/-- An update keeps the order of the times and the space between changes. -/
theorem Timed.step (h : Timed rounding options worker) (call : Call) :
    Timed rounding options (worker.step rounding options call) := by
  obtain ⟨retarget, hretarget, hle, hlast⟩ := h.times
  have hwait := seconds_mono rounding (Nat.le_add_right worker.clock call.wait)
  have hlag := seconds_mono rounding
    (Nat.le_add_right (worker.clock + call.wait) call.lag)
  have hnow : retarget ≤ seconds rounding (worker.clock + call.wait) := hle.trans hwait
  have houtcome := outcome_perform rounding options call (worker.clock + call.wait) worker.context
  rw [Worker.step]
  generalize call.perform rounding options (worker.clock + call.wait) worker.context = result
    at houtcome
  cases houtcome with
  | kept =>
      refine ⟨⟨retarget, hretarget, hnow.trans hlag, fun lastTs hmem => ?_⟩, ?_, ?_⟩
      · obtain ⟨last, rfl, hafter, hbefore⟩ := hlast lastTs hmem
        exact ⟨last, rfl, hafter, (hbefore.trans hwait).trans hlag⟩
      · simpa using h.changed
      · simpa using h.spaced
  | seen after hts hkept =>
      refine ⟨⟨retarget, hkept.trans hretarget, hnow.trans hlag, fun lastTs hmem => ?_⟩, ?_, ?_⟩
      · obtain rfl : toUnixSeconds rounding (worker.clock + call.wait) = lastTs := by
          simpa [hts] using hmem
        exact ⟨_, rfl, hnow, hlag⟩
      · simpa [hts, hkept] using fun ts hmem => (h.changed ts hmem).2
      · simpa using h.spaced
  | initialised after hfirst hts hinit =>
      have hnone : worker.changes.getLast? = none := by
        by_contra hsome
        obtain ⟨ts, hmem⟩ := Option.ne_none_iff_exists'.mp hsome
        have hseen := (h.changed ts hmem).1
        rw [hfirst] at hseen
        cases hseen
      refine ⟨⟨_, hinit, hlag, fun lastTs hmem => ?_⟩, ?_, ?_⟩
      · obtain rfl : toUnixSeconds rounding (worker.clock + call.wait) = lastTs := by
          simpa [hts] using hmem
        exact ⟨_, rfl, le_rfl, hlag⟩
      · simp [hnone]
      · simpa using h.spaced
  | changed newDiff after hts hchanged hwaited =>
      refine ⟨⟨_, hchanged, hlag, fun lastTs hmem => ?_⟩, ?_, ?_⟩
      · obtain rfl : toUnixSeconds rounding (worker.clock + call.wait) = lastTs := by
          simpa [hts] using hmem
        exact ⟨_, rfl, le_rfl, hlag⟩
      · simp [hts, hchanged]
      · rw [Option.toList_some, List.map_singleton, List.isChain_append]
        refine ⟨h.spaced, List.isChain_singleton _, fun earlier hearlier later hlater => ?_⟩
        obtain rfl : toUnixSeconds rounding (worker.clock + call.wait) = later := by
          simpa using hlater
        obtain ⟨hseen, hsame⟩ := h.changed earlier hearlier
        obtain ⟨lastTs, hmem⟩ := Option.isSome_iff_exists.mp hseen
        obtain ⟨last, rfl, hafter, -⟩ := hlast lastTs hmem
        rw [hretarget] at hsame
        subst hsame
        obtain hspaced | hspaced := hwaited _ hmem
        · exact hspaced.mono hafter
        · rw [hretarget] at hspaced
          exact spacedBy_of_sub hspaced

theorem timed_run (rounding : Rounding) (options : VarDiffConfig) (created : ℕ)
    (calls : List Call) : Timed rounding options (.run rounding options created calls) := by
  induction calls using List.reverseRecOn with
  | nil => exact timed_connected created
  | append_singleton calls call ih =>
      rw [Worker.run, List.foldl_append]
      exact ih.step call

end runs

/-- After any updates of a worker, the last of them was not before the last retarget, and any two
successive changes of its difficulty were as far apart as they have to be. -/
theorem retargetSpacing (rounding : Rounding) (options : VarDiffConfig) (created : ℕ)
    (calls : List Call) :
    (∀ lastTs ∈ (Worker.run rounding options created calls).context.lastTs,
        le (Worker.run rounding options created calls).context.lastRetarget lastTs = true) ∧
      (Worker.run rounding options created calls).changes.IsChain
        (SpacedBy rounding options) := by
  have htimed := timed_run rounding options created calls
  refine ⟨fun lastTs hmem => ?_, htimed.spaced⟩
  obtain ⟨retarget, hretarget, -, hlast⟩ := htimed.times
  obtain ⟨last, rfl, hle, -⟩ := hlast lastTs hmem
  rw [hretarget, le_finite, decide_eq_true_eq]
  exact hle

end Miningcore.VarDiff
