import Mathlib.Algebra.BigOperators.Group.List.Basic
import Mathlib.Algebra.Order.BigOperators.Group.List
import Mathlib.Algebra.Order.Field.Basic
import Mathlib.Tactic.Ring
import Miningcore.VarDiff.VarDiffManager

/-!
# The difficulties that are returned

In exact numbers, the new difficulty is moved to within the largest change of the
current one and then into the range. If the current one is in the range, neither
move turns the direction. Without a range around it, or with a clock that steps back,
the direction is not that of the average time.
-/

namespace Miningcore.VarDiff

open Foundation FloatingPoint

/-- A configuration of rationals whose bounds are in order. -/
structure Options where
  minDiff : ℚ
  maxDiff : Option ℚ
  maxDelta : Option ℚ
  targetTime : ℚ
  retargetTime : ℚ
  variancePercent : ℚ
  minDiff_pos : 0 < minDiff
  minDiff_le : ∀ bound ∈ maxDiff, minDiff ≤ bound

/-- A context of rationals. -/
structure Times where
  lastTs : Option ℚ
  lastRetarget : ℚ
  timeBuffer : Option (List ℚ)
  created : ℕ
  lastUpdate : Option ℕ

namespace Times

variable (times : Times)

def toContext : VarDiffContext where
  lastTs := times.lastTs.map finite
  lastRetarget := finite times.lastRetarget
  timeBuffer := times.timeBuffer.map (List.map finite)
  created := times.created
  lastUpdate := times.lastUpdate

/-- The time that the next one is measured from. -/
def last : ℚ := times.lastTs.getD (seconds .exact times.created)

/-- The average time between shares, with the one until now. -/
def average (now : ℕ) : ℚ :=
  let buffer := times.timeBuffer.getD []
  (buffer.sum + (seconds .exact now - times.last)) / (buffer.length + 1)

end Times

namespace Options

variable (options : Options)

def toConfig : VarDiffConfig where
  minDiff := finite options.minDiff
  maxDiff := options.maxDiff.map finite
  maxDelta := options.maxDelta.map finite
  targetTime := finite options.targetTime
  retargetTime := finite options.retargetTime
  variancePercent := finite options.variancePercent

/-- The largest difficulty, also without a configured one. -/
def upper : ℚ := options.maxDiff.getD (max options.minDiff ((2 ^ 53 - 1) * 2 ^ 971))

def InRange (difficulty : ℚ) : Prop := options.minDiff ≤ difficulty ∧ difficulty ≤ options.upper

/-- A difficulty that is at most the largest change away. -/
def limited (current newDiff : ℚ) : ℚ :=
  match options.maxDelta with
  | none => newDiff
  | some maxDelta =>
      if 0 < maxDelta then max (current - maxDelta) (min (current + maxDelta) newDiff)
      else newDiff

def clamped (newDiff : ℚ) : ℚ := min options.upper (max options.minDiff newDiff)

/-- What an update returns, of either kind. -/
def returned (times : Times) (idle : Bool) (current : ℚ) (now updated : ℕ) :
    Option FloatingPoint :=
  if idle then
    (options.toConfig.idleUpdate .exact (finite current) now updated times.toContext).1
  else (options.toConfig.update .exact (finite current) now updated times.toContext).1

end Options

section bounds

variable {options : Options} {current newDiff : ℚ}

theorem minDiff_le_upper (options : Options) : options.minDiff ≤ options.upper := by
  rw [Options.upper]
  cases hmax : options.maxDiff with
  | none => exact le_max_left _ _
  | some bound => exact options.minDiff_le bound hmax

theorem inRange_clamped (options : Options) (newDiff : ℚ) :
    options.InRange (options.clamped newDiff) :=
  ⟨le_min (minDiff_le_upper options) (le_max_left _ _), min_le_left _ _⟩

/-- Into a range around the current difficulty, a new one is not moved past it. -/
theorem lt_of_lt_clamped (h : options.InRange current) (hlt : current < options.clamped newDiff) :
    current < newDiff := by
  apply (lt_max_iff.mp (lt_min_iff.mp hlt).2).resolve_left
  exact not_lt.mpr h.1

theorem lt_of_clamped_lt (h : options.InRange current) (hlt : options.clamped newDiff < current) :
    newDiff < current := by
  apply (max_lt_iff.mp ((min_lt_iff.mp hlt).resolve_left _)).2
  exact not_lt.mpr h.2

theorem lt_of_lt_limited (hlt : current < options.limited current newDiff) :
    current < newDiff := by
  rw [Options.limited] at hlt
  split at hlt
  · exact hlt
  · split_ifs at hlt with hpos
    · apply (lt_min_iff.mp ((lt_max_iff.mp hlt).resolve_left _)).2
      exact not_lt.mpr (sub_le_self current hpos.le)
    · exact hlt

theorem lt_of_limited_lt (hlt : options.limited current newDiff < current) :
    newDiff < current := by
  rw [Options.limited] at hlt
  split at hlt
  · exact hlt
  · split_ifs at hlt with hpos
    · apply (min_lt_iff.mp (max_lt_iff.mp hlt).2).resolve_left
      exact not_lt.mpr (le_add_of_nonneg_right hpos.le)
    · exact hlt

/-- Moved into the range, a difficulty is still near the current one. -/
theorem abs_clamped_limited_sub_le (h : options.InRange current) {maxDelta : ℚ}
    (hdelta : options.maxDelta = some maxDelta) (hpos : 0 < maxDelta) (newDiff : ℚ) :
    |options.clamped (options.limited current newDiff) - current| ≤ maxDelta := by
  have hlimited : options.limited current newDiff =
      max (current - maxDelta) (min (current + maxDelta) newDiff) := by
    rw [Options.limited, hdelta]
    exact if_pos hpos
  rw [hlimited, Options.clamped, abs_sub_le_iff, sub_le_iff_le_add', sub_le_comm]
  constructor
  · apply (min_le_right _ _).trans
    apply max_le (h.1.trans (le_add_of_nonneg_right hpos.le))
    exact max_le ((sub_le_self _ hpos.le).trans (le_add_of_nonneg_right hpos.le))
      (min_le_left _ _)
  · apply le_min ((sub_le_self _ hpos.le).trans h.2)
    exact (le_max_left _ _).trans (le_max_right _ _)

end bounds

section exact

variable {options : Options} {current newDiff : ℚ}

theorem exact_sub (x y : ℚ) : sub .exact (finite x) (finite y) = finite (x - y) := sub_finite

theorem limitDelta_finite :
    options.toConfig.limitDelta .exact (finite newDiff) (finite current) =
      finite (options.limited current newDiff) := by
  rw [VarDiffConfig.limitDelta, Options.limited, Options.toConfig]
  cases options.maxDelta with
  | none => rfl
  | some maxDelta =>
      rw [Option.map_some]
      dsimp only
      rw [lt_finite, exact_sub, FloatingPoint.abs, exact_sub, exact_sub, add_finite, lt_finite,
        lt_finite, lt_finite]
      simp only [decide_eq_true_eq]
      split_ifs with hpos hfar hup hdown
      · rw [abs_of_pos (sub_pos.mpr hup)] at hfar ⊢
        rw [min_eq_left (by linarith), max_eq_right (by linarith)]
        congr 1
        ring
      · rw [abs_of_neg (sub_neg.mpr hdown)] at hfar ⊢
        rw [min_eq_right (by linarith), max_eq_left (by linarith)]
        apply congrArg finite
        change newDiff + (-(newDiff - current) - maxDelta) = _
        ring
      · obtain rfl := le_antisymm (not_lt.mp hup) (not_lt.mp hdown)
        rw [sub_self, abs_zero] at hfar
        exact absurd hfar (not_lt.mpr hpos.le)
      · obtain ⟨hlow, hhigh⟩ := abs_le.mp (not_lt.mp hfar)
        rw [min_eq_right (by linarith), max_eq_right (by linarith)]
      · rfl

theorem max_finite {x y : ℚ} : FloatingPoint.max (finite x) (finite y) = finite (max x y) := by
  have hmax : FloatingPoint.max (finite x) (finite y) = if x < y then finite y else finite x := by
    simp [FloatingPoint.max]
  rw [hmax]
  split_ifs with hlt
  · exact congrArg finite (max_eq_right hlt.le).symm
  · exact congrArg finite (max_eq_left (not_lt.mp hlt)).symm

theorem upperLimit_eq : options.toConfig.upperLimit = finite options.upper := by
  rw [VarDiffConfig.upperLimit, Options.upper, Options.toConfig]
  cases options.maxDiff with
  | some bound => rfl
  | none =>
      exact max_finite

theorem clamp_finite :
    options.toConfig.clamp (finite newDiff) = finite (options.clamped newDiff) := by
  have hbelow : (if lt (finite newDiff) options.toConfig.minDiff then options.toConfig.minDiff
      else finite newDiff) = finite (max options.minDiff newDiff) := by
    change (if decide (newDiff < options.minDiff) = true then finite options.minDiff
      else finite newDiff) = _
    simp only [decide_eq_true_eq]
    split_ifs with hlt
    · exact congrArg finite (max_eq_left hlt.le).symm
    · exact congrArg finite (max_eq_right (not_lt.mp hlt)).symm
  rw [VarDiffConfig.clamp, hbelow, upperLimit_eq, lt_finite, Options.clamped]
  simp only [decide_eq_true_eq]
  split_ifs with hlt
  · exact congrArg finite (min_eq_left hlt.le).symm
  · exact congrArg finite (min_eq_right (not_lt.mp hlt)).symm

theorem limitDelta_nan : options.toConfig.limitDelta .exact nan (finite current) = nan := by
  rw [VarDiffConfig.limitDelta, Options.toConfig]
  cases options.maxDelta with
  | none => rfl
  | some maxDelta => exact ite_self _

theorem clamp_nan : options.toConfig.clamp nan = nan := by
  rw [VarDiffConfig.clamp, upperLimit_eq]
  rfl

/-- An infinite difficulty becomes a bound. -/
theorem clamp_infinite (negative : Bool) : options.toConfig.clamp (infinite negative) =
    finite (if negative then options.minDiff else options.upper) := by
  rw [VarDiffConfig.clamp, upperLimit_eq]
  cases negative with
  | false => rfl
  | true =>
      change (if lt (finite options.upper) (finite options.minDiff) then _ else _) = _
      rw [lt_finite, decide_eq_false (not_lt.mpr (minDiff_le_upper options))]
      rfl

/-- A largest change leaves no number of an infinite difficulty. -/
theorem limitDelta_infinite (options : Options) (current : ℚ) (negative : Bool) :
    options.toConfig.limitDelta .exact (infinite negative) (finite current) = nan ∨
      (∀ maxDelta ∈ options.maxDelta, ¬0 < maxDelta) ∧
        options.toConfig.limitDelta .exact (infinite negative) (finite current) =
          infinite negative := by
  rw [VarDiffConfig.limitDelta, Options.toConfig]
  cases options.maxDelta with
  | none => exact .inr ⟨fun _ h => absurd h (Option.not_mem_none _), rfl⟩
  | some maxDelta =>
      rw [Option.map_some]
      dsimp only
      by_cases hpos : 0 < maxDelta
      · rw [lt_finite, decide_eq_true hpos, if_pos rfl]
        cases negative with
        | false => exact .inl rfl
        | true => exact .inl rfl
      · rw [lt_finite, decide_eq_false hpos]
        exact .inr ⟨fun delta hdelta => Option.some.inj hdelta ▸ hpos, rfl⟩

/-- What is returned is the limited and clamped difficulty, and another one. -/
theorem tryApplyNewDiff_eq_some {config : VarDiffConfig} {newDiff oldDiff ts result : FloatingPoint}
    {context : VarDiffContext} {updated : ℕ}
    (h : (config.tryApplyNewDiff .exact newDiff oldDiff ts context updated).1 = some result) :
    config.clamp (config.limitDelta .exact newDiff oldDiff) = result ∧
      (lt result oldDiff = true ∨ lt oldDiff result = true) := by
  rw [VarDiffConfig.tryApplyNewDiff] at h
  split_ifs at h with hsame
  obtain rfl := Option.some.inj h
  rw [Bool.and_eq_true, not_and_or, Bool.not_eq_true', Bool.not_eq_false, Bool.not_eq_true',
    Bool.not_eq_false] at hsame
  exact ⟨rfl, hsame⟩

variable (options) in
/-- What an update that returns a difficulty has made of the current one. -/
structure Adjusted (product average current result : ℚ) : Prop where
  ne : result ≠ current
  inRange : options.InRange result
  near : options.InRange current → ∀ maxDelta ∈ options.maxDelta, 0 < maxDelta →
    |result - current| ≤ maxDelta
  raised : options.InRange current → current < result →
    if average = 0 then 0 < product else current < product / average
  lowered : options.InRange current → result < current →
    if average = 0 then product < 0 else product / average < current

theorem exists_adjusted {product average : ℚ} {ts result : FloatingPoint} {context : VarDiffContext}
    {updated : ℕ} (h : (options.toConfig.tryApplyNewDiff .exact
      (div .exact (finite product) (finite average)) (finite current) ts context updated).1 =
        some result) :
    ∃ q, result = finite q ∧ Adjusted options product average current q := by
  obtain ⟨rfl, hchanged⟩ := tryApplyNewDiff_eq_some h
  by_cases haverage : average = 0
  · by_cases hproduct : product = 0
    · have hdiv : div .exact (finite product) (finite average) = nan :=
        (if_pos haverage).trans (if_pos hproduct)
      rw [hdiv, limitDelta_nan, clamp_nan] at hchanged
      exact (hchanged.elim Bool.noConfusion Bool.noConfusion)
    · have hdiv : div .exact (finite product) (finite average) =
          infinite (decide (product < 0)) := (if_pos haverage).trans (if_neg hproduct)
      rw [hdiv] at hchanged
      rw [hdiv]
      obtain hnan | ⟨hdelta, hinfinite⟩ :=
        limitDelta_infinite options current (decide (product < 0))
      · rw [hnan, clamp_nan] at hchanged
        exact (hchanged.elim Bool.noConfusion Bool.noConfusion)
      · simp only [hinfinite, clamp_infinite, lt_finite, decide_eq_true_eq] at hchanged ⊢
        refine ⟨_, rfl, lt_or_lt_iff_ne.mp hchanged, ?_, ?_, ?_, ?_⟩
        · split_ifs
          · exact ⟨le_rfl, minDiff_le_upper options⟩
          · exact ⟨minDiff_le_upper options, le_rfl⟩
        · intro _ maxDelta hmem hpos
          exact absurd hpos (hdelta maxDelta hmem)
        · intro hcurrent hraised
          rw [if_pos haverage]
          split_ifs at hraised with hnegative
          · exact absurd hraised (not_lt.mpr hcurrent.1)
          · exact lt_of_le_of_ne (not_lt.mp hnegative) (Ne.symm hproduct)
        · intro hcurrent hlowered
          rw [if_pos haverage]
          split_ifs at hlowered with hnegative
          · exact hnegative
          · exact absurd hlowered (not_lt.mpr hcurrent.2)
  · have hdiv : div .exact (finite product) (finite average) = finite (product / average) :=
      if_neg haverage
    rw [hdiv, limitDelta_finite, clamp_finite, lt_finite, lt_finite, decide_eq_true_eq,
      decide_eq_true_eq] at hchanged
    refine ⟨_, by rw [hdiv, limitDelta_finite, clamp_finite], lt_or_lt_iff_ne.mp hchanged,
      inRange_clamped _ _, ?_, ?_, ?_⟩
    · intro hcurrent maxDelta hdelta hpos
      exact abs_clamped_limited_sub_le hcurrent hdelta hpos _
    · intro hcurrent hraised
      rw [if_neg haverage]
      exact lt_of_lt_limited (lt_of_lt_clamped hcurrent hraised)
    · intro hcurrent hlowered
      rw [if_neg haverage]
      exact lt_of_limited_lt (lt_of_clamped_lt hcurrent hlowered)

end exact

section updates

variable {options : Options} {times : Times} {current : ℚ} {now updated : ℕ}

theorem sum_map_finite (xs : List ℚ) : sum .exact (xs.map finite) = finite xs.sum := by
  induction xs using List.reverseRecOn with
  | nil => rfl
  | append_singleton xs x ih =>
      rw [List.map_append, sum, List.foldl_append, ← sum, ih, List.sum_append, List.sum_singleton]
      rfl

theorem Times.getD_timeBuffer (times : Times) :
    times.toContext.timeBuffer.getD [] = (times.timeBuffer.getD []).map finite := by
  rw [Times.toContext]
  cases times.timeBuffer <;> rfl

theorem elapsed_eq (times : Times) (now : ℕ) :
    times.toContext.elapsed .exact (toUnixSeconds .exact now) =
      finite (seconds .exact now - times.last) := by
  rw [VarDiffContext.elapsed, Times.toContext, Times.last]
  cases times.lastTs with
  | none => exact exact_sub _ _
  | some lastTs => exact exact_sub _ _

/-- The average that an update divides by. -/
theorem average_eq (times : Times) (now : ℕ) :
    div .exact
        (add .exact (sum .exact (times.toContext.timeBuffer.getD []))
          (finite (seconds .exact now - times.last)))
        (finite ((times.toContext.timeBuffer.getD []).length + 1)) =
      finite (times.average now) := by
  have hne : ((times.timeBuffer.getD []).length : ℚ) + 1 ≠ 0 := by positivity
  rw [times.getD_timeBuffer, sum_map_finite, List.length_map]
  exact if_neg hne

/-- Only a difficulty by the average time is returned. -/
theorem exists_of_returned {idle : Bool} {result : FloatingPoint}
    (h : options.returned times idle current now updated = some result) :
    ∃ ts context, (options.toConfig.tryApplyNewDiff .exact
      (div .exact (finite (current * options.targetTime)) (finite (times.average now)))
      (finite current) ts context updated).1 = some result := by
  have haverage := average_eq times now
  cases idle with
  | false =>
      change (options.toConfig.update .exact _ _ _ _).1 = _ at h
      rw [VarDiffConfig.update] at h
      cases hlast : times.lastTs with
      | none =>
          rw [Times.toContext, hlast] at h
          contradiction
      | some lastTs =>
          have hfirst : times.toContext.lastTs = some (finite lastTs) :=
            congrArg (Option.map finite) hlast
          rw [Times.last, hlast] at haverage
          have hdelta : sub .exact (toUnixSeconds .exact now) (finite lastTs) =
              finite (seconds .exact now - lastTs) := exact_sub _ _
          rw [hfirst] at h
          dsimp only at h
          split_ifs at h
          rw [hdelta] at h
          rw [← haverage]
          exact ⟨_, _, h⟩
  | true =>
      change (options.toConfig.idleUpdate .exact _ _ _ _).1 = _ at h
      rw [VarDiffConfig.idleUpdate, elapsed_eq] at h
      dsimp only at h
      split_ifs at h
      have hmargin : sub .exact (add .exact (finite (seconds .exact now - times.last)) safetyMargin)
          safetyMargin = finite (seconds .exact now - times.last) :=
        congrArg finite (add_neg_cancel_right (seconds .exact now - times.last) 1)
      rw [hmargin] at h
      rw [← haverage]
      exact ⟨_, _, h⟩

theorem lt_of_raised {average : ℚ} (hcurrent : 0 < current) (haverage : 0 < average)
    (h : current < current * options.targetTime / average) : average < options.targetTime := by
  rw [lt_div_iff₀ haverage] at h
  exact lt_of_mul_lt_mul_left h hcurrent.le

theorem lt_of_lowered {average : ℚ} (hcurrent : 0 < current) (haverage : 0 < average)
    (h : current * options.targetTime / average < current) : options.targetTime < average := by
  rw [div_lt_iff₀ haverage] at h
  exact lt_of_mul_lt_mul_left h hcurrent.le

/-- Times that are not negative, with one that is positive, have a positive average. -/
theorem average_pos (hbuffer : ∀ time ∈ times.timeBuffer.getD [], 0 ≤ time)
    (hlast : times.last < seconds .exact now) : 0 < times.average now := by
  rw [Times.average]
  apply div_pos (add_pos_of_nonneg_of_pos (List.sum_nonneg hbuffer) (sub_pos.mpr hlast))
  positivity

end updates

/-- A difficulty that is returned is another one and in the range. If the current one is in the
range too, it is within the largest change, if there is one, and it is higher only below the target
time and lower only above it, unless the average time is negative. The average is not zero when
time has passed. -/
theorem returned_bounds (options : Options) (times : Times) (current : ℚ) (now updated : ℕ) :
    (∀ idle result, options.returned times idle current now updated = some result →
      ∃ newDiff, result = finite newDiff ∧ newDiff ≠ current ∧ options.InRange newDiff ∧
        (options.InRange current →
          (∀ maxDelta ∈ options.maxDelta, 0 < maxDelta → |newDiff - current| ≤ maxDelta) ∧
          (0 ≤ times.average now →
            (current < newDiff → times.average now < options.targetTime) ∧
            (newDiff < current → options.targetTime < times.average now)))) ∧
    ((∀ time ∈ times.timeBuffer.getD [], 0 ≤ time) → times.last < seconds .exact now →
      times.average now ≠ 0) := by
  refine ⟨fun idle result h => ?_, fun hbuffer hlast => (average_pos hbuffer hlast).ne'⟩
  obtain ⟨ts, context, htry⟩ := exists_of_returned h
  obtain ⟨newDiff, rfl, hadjusted⟩ := exists_adjusted htry
  refine ⟨newDiff, rfl, hadjusted.ne, hadjusted.inRange, fun hcurrent => ?_⟩
  have hpos : 0 < current := options.minDiff_pos.trans_le hcurrent.1
  refine ⟨hadjusted.near hcurrent, fun haverage => ⟨fun hraised => ?_, fun hlowered => ?_⟩⟩
  · have hquotient := hadjusted.raised hcurrent hraised
    split_ifs at hquotient with hzero
    · rw [hzero]
      exact (mul_pos_iff_of_pos_left hpos).mp hquotient
    · exact lt_of_raised hpos (lt_of_le_of_ne haverage (Ne.symm hzero)) hquotient
  · have hquotient := hadjusted.lowered hcurrent hlowered
    split_ifs at hquotient with hzero
    · rw [hzero]
      exact neg_of_mul_neg_right hquotient hpos.le
    · exact lt_of_lowered hpos (lt_of_le_of_ne haverage (Ne.symm hzero)) hquotient

section examples

/-- A range from 10 to 1000 and a target of 15 seconds. -/
def wideOptions (maxDelta : Option ℚ) : Options where
  minDiff := 10
  maxDiff := some 1000
  maxDelta := maxDelta
  targetTime := 15
  retargetTime := 90
  variancePercent := 30
  minDiff_pos := by norm_num
  minDiff_le bound h := Option.some.inj h ▸ by norm_num

/-- An update at a time, when the last change was at the start. -/
def updatedAt (lastTs : ℚ) : Times where
  lastTs := some lastTs
  lastRetarget := 0
  timeBuffer := none
  created := 0
  lastUpdate := none

/-- After 200 seconds without a share the difficulty 20 becomes 10. -/
theorem returned_bounds_idle : ∃ newDiff, finite 10 = finite newDiff ∧ newDiff ≠ 20 ∧
    (wideOptions none).InRange newDiff ∧ (newDiff < 20 → 15 < (updatedAt 0).average 2000000000) ∧
    (updatedAt 0).average 2000000000 ≠ 0 := by
  obtain ⟨newDiff, hresult, hne, hrange, hdirection⟩ :=
    (returned_bounds (wideOptions none) (updatedAt 0) 20 2000000000 2000000000).1 true (finite 10)
      (by decide +kernel)
  have hpositive : 0 ≤ (updatedAt 0).average 2000000000 := by decide +kernel
  have hcurrent : (wideOptions none).InRange 20 := ⟨by decide +kernel, by decide +kernel⟩
  exact ⟨newDiff, hresult, hne, hrange, ((hdirection hcurrent).2 hpositive).2,
    (returned_bounds (wideOptions none) (updatedAt 0) 20 2000000000 2000000000).2
      (fun _ h => absurd h List.not_mem_nil) (by decide +kernel)⟩

/-- Below the range a difficulty is raised although shares are rare, a clock that steps back lowers
one, a largest change of zero does not bound the change, and a share at the time of the sweep
divides by zero. -/
theorem not_returned_bounds :
    ((wideOptions none).returned (updatedAt 0) false 1 2000000000 2000000000 = some (finite 10) ∧
      15 < (updatedAt 0).average 2000000000) ∧
    ((wideOptions none).returned (updatedAt 1000) false 20 2000000000 2000000000 =
        some (finite 10) ∧ (updatedAt 1000).average 2000000000 < 15) ∧
    (wideOptions (some 0)).returned (updatedAt 0) false 20 2000000000 2000000000 =
      some (finite 10) ∧
    (Worker.run .exact (wideOptions none).toConfig 0
        [⟨0, false, finite 10, 0⟩, ⟨1000000000, true, finite 10, 0⟩]).context =
      (updatedAt 100).toContext ∧
    (updatedAt 100).average 1000000000 = 0 ∧
    (wideOptions none).returned (updatedAt 100) false 10 1000000000 1000000000 =
      some (finite 1000) := by
  decide +kernel

end examples

end Miningcore.VarDiff
