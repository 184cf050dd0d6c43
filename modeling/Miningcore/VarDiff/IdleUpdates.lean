import Miningcore.VarDiff.DifficultyBounds

/-!
# The sweep of an idle worker

The sweep averages the time without a share with the times that are buffered. A
worker whose last shares came fast has an average below the target although it has
sent nothing for longer than the target, and the sweep then makes it harder.
-/

namespace Miningcore.VarDiff

open Foundation FloatingPoint

/-- A context of times that are not negative and not ahead of the clock. -/
structure Recorded (clock : ℕ) (context : VarDiffContext) (times : Times) : Prop where
  context_eq : context = times.toContext
  buffer_nonneg : ∀ time ∈ times.timeBuffer.getD [], 0 ≤ time
  created_le : times.created ≤ clock
  last_le : ∀ last ∈ times.lastTs, last ≤ seconds .exact clock

section steps

variable {options : Options} {clock now : ℕ} {context : VarDiffContext} {times : Times}

theorem Recorded.later (h : Recorded clock context times) (hle : clock ≤ now) :
    Recorded now context times where
  context_eq := h.context_eq
  buffer_nonneg := h.buffer_nonneg
  created_le := h.created_le.trans hle
  last_le last hlast := (h.last_le last hlast).trans (seconds_mono .exact hle)

/-- The context of an update, with the time of it. -/
def Times.seenAt (times : Times) (now : ℕ) : Times :=
  { times with lastTs := some (seconds .exact now) }

theorem Recorded.seenAt (h : Recorded clock context times) (hle : clock ≤ now) :
    Recorded now (times.seenAt now).toContext (times.seenAt now) where
  context_eq := rfl
  buffer_nonneg := h.buffer_nonneg
  created_le := h.created_le.trans hle
  last_le _ hlast := (Option.some.inj hlast).ge

/-- A change of the difficulty empties the buffer. -/
theorem Recorded.tryApplyNewDiff (h : Recorded now context times)
    (newDiff oldDiff : FloatingPoint) (updated : ℕ) :
    ∃ after, Recorded now (options.toConfig.tryApplyNewDiff .exact newDiff oldDiff
      (toUnixSeconds .exact now) context updated).2 after := by
  rw [VarDiffConfig.tryApplyNewDiff]
  split
  · exact ⟨times, h⟩
  · refine ⟨{ times with
      lastRetarget := seconds .exact now
      lastUpdate := some updated
      timeBuffer := times.timeBuffer.map fun _ => [] }, ?_, ?_, h.created_le, h.last_le⟩
    · rw [h.context_eq, Times.toContext, Times.toContext]
      cases times.timeBuffer <;> rfl
    · cases times.timeBuffer with
      | none => exact fun _ hmem => absurd hmem List.not_mem_nil
      | some buffer => exact fun _ hmem => absurd hmem List.not_mem_nil

variable (options) in
theorem Recorded.idleUpdate (h : Recorded clock context times) (hle : clock ≤ now)
    (difficulty : FloatingPoint) (updated : ℕ) :
    ∃ after, Recorded now
      (options.toConfig.idleUpdate .exact difficulty now updated context).2 after := by
  rw [VarDiffConfig.idleUpdate]
  dsimp only
  split
  · exact ⟨times, h.later hle⟩
  · have hseen : { context with lastTs := some (toUnixSeconds .exact now) } =
        (times.seenAt now).toContext := by
      rw [h.context_eq]
      rfl
    rw [hseen]
    exact (h.seenAt hle).tryApplyNewDiff _ _ _

variable (options) in
/-- The buffer of an update for a share has the time since the one before it. -/
theorem Recorded.update (h : Recorded clock context times) (hle : clock ≤ now)
    (difficulty : FloatingPoint) (updated : ℕ) :
    ∃ after, Recorded now
      (options.toConfig.update .exact difficulty now updated context).2 after := by
  rw [VarDiffConfig.update, h.context_eq]
  dsimp only
  cases hlast : times.lastTs with
  | none =>
      simp only [Times.toContext, hlast, Option.map_none]
      exact ⟨{ times.seenAt now with lastRetarget := seconds .exact now }, rfl,
        h.buffer_nonneg, h.created_le.trans hle, (h.seenAt hle).last_le⟩
  | some lastTs =>
      have hdelta : sub .exact (toUnixSeconds .exact now) (finite lastTs) =
          finite (seconds .exact now - lastTs) := exact_sub _ _
      have hpush : pushBack ((times.timeBuffer.getD []).map finite)
          (finite (seconds .exact now - lastTs)) =
          ((times.timeBuffer.getD [] ++ [seconds .exact now - lastTs]).drop
            ((times.timeBuffer.getD []).length + 1 - bufferSize)).map finite := by
        rw [pushBack, List.map_drop, List.map_append, List.length_map, List.map_singleton]
      have hcontext : times.toContext.lastTs = some (finite lastTs) :=
        congrArg (Option.map finite) hlast
      have hrecorded : Recorded now
          { times.toContext with
            timeBuffer := some (pushBack (times.toContext.timeBuffer.getD [])
              (sub .exact (toUnixSeconds .exact now) (finite lastTs)))
            lastTs := some (toUnixSeconds .exact now) }
          { times.seenAt now with
            timeBuffer := some ((times.timeBuffer.getD [] ++ [seconds .exact now - lastTs]).drop
              ((times.timeBuffer.getD []).length + 1 - bufferSize)) } := by
        refine ⟨?_, fun time hmem => ?_, h.created_le.trans hle, (h.seenAt hle).last_le⟩
        · rw [hdelta, times.getD_timeBuffer, hpush]
          rfl
        · obtain hmem | hmem := List.mem_append.mp (List.mem_of_mem_drop hmem)
          · exact h.buffer_nonneg time hmem
          · rw [List.mem_singleton.mp hmem, sub_nonneg]
            exact (h.last_le lastTs hlast).trans (seconds_mono .exact hle)
      rw [hcontext]
      dsimp only
      split
      · exact ⟨_, hrecorded⟩
      · exact hrecorded.tryApplyNewDiff _ _ _

theorem exists_recorded_run (options : Options) (created : ℕ) (calls : List Call) :
    ∃ times, Recorded (Worker.run .exact options.toConfig created calls).clock
      (Worker.run .exact options.toConfig created calls).context times := by
  induction calls using List.reverseRecOn with
  | nil =>
      exact ⟨⟨none, 0, none, created, none⟩, rfl, fun _ hmem => absurd hmem List.not_mem_nil,
        le_rfl, fun _ hmem => absurd hmem (Option.not_mem_none _)⟩
  | append_singleton calls call ih =>
      obtain ⟨times, htimes⟩ := ih
      rw [Worker.run, List.foldl_append, ← Worker.run, List.foldl_cons, List.foldl_nil,
        Worker.step, Call.perform]
      dsimp only
      split
      · obtain ⟨after, hafter⟩ := htimes.idleUpdate options
          (Nat.le_add_right _ call.wait) call.difficulty _
        exact ⟨after, hafter.later (Nat.le_add_right _ _)⟩
      · obtain ⟨after, hafter⟩ := htimes.update options
          (Nat.le_add_right _ call.wait) call.difficulty _
        exact ⟨after, hafter.later (Nat.le_add_right _ _)⟩

end steps

section lowered

variable {options : Options} {times : Times} {current newDiff average : ℚ}

/-- By a positive average, a difficulty that is applied is lower just above the target time, or
above the range. -/
theorem Adjusted.lt_iff (hadjusted : Adjusted options (current * options.targetTime) average
      current newDiff) (haverage : 0 < average) :
    newDiff < current ↔
      options.minDiff ≤ current ∧ (options.upper < current ∨ options.targetTime < average) := by
  have hpos : options.minDiff ≤ current → 0 < current := options.minDiff_pos.trans_le
  constructor
  · intro hlowered
    have hmin : options.minDiff ≤ current := hadjusted.inRange.1.trans hlowered.le
    refine ⟨hmin, (lt_or_ge options.upper current).imp_right fun hupper => ?_⟩
    have hquotient := hadjusted.lowered ⟨hmin, hupper⟩ hlowered
    rw [if_neg haverage.ne'] at hquotient
    exact lt_of_lowered (hpos hmin) haverage hquotient
  · rintro ⟨hmin, hupper | htarget⟩
    · exact hadjusted.inRange.2.trans_lt hupper
    · apply lt_of_le_of_ne _ hadjusted.ne
      by_contra hraised
      obtain hupper | hupper := lt_or_ge options.upper current
      · exact hraised (hadjusted.inRange.2.trans hupper.le)
      · have hquotient := hadjusted.raised ⟨hmin, hupper⟩ (not_le.mp hraised)
        rw [if_neg haverage.ne'] at hquotient
        exact lt_asymm htarget (lt_of_raised (hpos hmin) haverage hquotient)

end lowered

/-- After any updates, a sweep of a worker whose time since the last update is above the target
time returns a lower difficulty just if the current one is in the range and the average of the
buffered times and that time is above the target too, or the current one is above the range. -/
theorem idle_lt_iff (options : Options) (created : ℕ) (calls : List Call) (current idleTime : ℚ)
    (now updated : ℕ) (htarget : 0 < options.targetTime)
    (helapsed : (Worker.run .exact options.toConfig created calls).context.elapsed .exact
      (toUnixSeconds .exact now) = finite idleTime)
    (hidle : options.targetTime < idleTime) :
    ∃ times, (Worker.run .exact options.toConfig created calls).context = times.toContext ∧
      ∀ result, options.returned times true current now updated = some result →
        ∃ newDiff, result = finite newDiff ∧
          (newDiff < current ↔ options.minDiff ≤ current ∧
            (options.upper < current ∨ options.targetTime < times.average now)) := by
  obtain ⟨times, htimes⟩ := exists_recorded_run options created calls
  refine ⟨times, htimes.context_eq, fun result h => ?_⟩
  obtain ⟨ts, context, htry⟩ := exists_of_returned h
  obtain ⟨newDiff, rfl, hadjusted⟩ := exists_adjusted htry
  rw [htimes.context_eq, elapsed_eq] at helapsed
  have hlast : times.last < seconds .exact now := by
    rw [← sub_pos]
    exact finite.inj helapsed ▸ htarget.trans hidle
  exact ⟨newDiff, rfl, hadjusted.lt_iff (average_pos htimes.buffer_nonneg hlast)⟩

section examples

/-- Eleven shares, one a second. -/
def fastShares : List Call :=
  List.replicate 11 ⟨10000000, false, finite 20, 0⟩

/-- After 210 seconds without a share the average is above the target, and 20 becomes 15. -/
theorem idle_lt_iff_fastShares :
    ∃ times, (Worker.run .exact (wideOptions none).toConfig 0 fastShares).context =
        times.toContext ∧
      (wideOptions none).returned times true 20 2210000000 2210000000 =
        some (finite 15) ∧
      15 < times.average 2210000000 := by
  obtain ⟨times, hcontext, h⟩ := idle_lt_iff (wideOptions none) 0 fastShares 20 210 2210000000
    2210000000 (by decide +kernel) (by decide +kernel) (by decide +kernel)
  have hreturned : (wideOptions none).returned times true 20 2210000000 2210000000 =
      some (finite 15) := by
    change ((wideOptions none).toConfig.idleUpdate .exact _ _ _ times.toContext).1 = _
    rw [← hcontext]
    decide +kernel
  obtain ⟨newDiff, hnew, hlower⟩ := h _ hreturned
  refine ⟨times, hcontext, hreturned, ?_⟩
  apply (hlower.mp (finite.inj hnew ▸ by norm_num)).2.resolve_left
  decide +kernel

/-- After 100 seconds without a share the ten times of a second still make the average less than
the target, and 20 becomes 30. A difficulty below the range is raised into it. -/
theorem not_idle_lt :
    (∀ call ∈ fastShares, call.idle = false) ∧
    (Worker.run .exact (wideOptions none).toConfig 0 fastShares).context.elapsed .exact
      (toUnixSeconds .exact 1110000000) = finite 100 ∧
    (wideOptions none).targetTime < 100 ∧
    ((wideOptions none).toConfig.idleUpdate .exact (finite 20) 1110000000 1110000000
      (Worker.run .exact (wideOptions none).toConfig 0 fastShares).context).1 =
        some (finite 30) ∧
    ((wideOptions none).toConfig.idleUpdate .exact (finite 1) 2210000000 2210000000
      (Worker.run .exact (wideOptions none).toConfig 0 fastShares).context).1 =
        some (finite 10) := by
  decide +kernel

end examples

end Miningcore.VarDiff
