import Mathlib.Data.List.Basic
import Mathlib.Data.List.Induction
import Mathlib.Logic.Function.Basic
import Mathlib.Tactic.Common

/-!
# Threads that share a store

Every thread has a state of its own, and all of them read and write one store. A schedule
says whose step comes next.
-/

namespace Foundation

/-- A store, and the states of the threads that share it. -/
structure Interleaved (ι σ τ : Type*) where
  store : σ
  threads : ι → τ

namespace Interleaved

variable {ι σ τ : Type*} [DecidableEq ι] (act : ι → σ → τ → σ × τ)

/-- A step of a thread. -/
def step (state : Interleaved ι σ τ) (i : ι) : Interleaved ι σ τ where
  store := (act i state.store (state.threads i)).1
  threads := Function.update state.threads i (act i state.store (state.threads i)).2

/-- The steps of a schedule. -/
def run (start : Interleaved ι σ τ) (schedule : List ι) : Interleaved ι σ τ :=
  schedule.foldl (step act) start

/-- Whenever the schedule lets a thread take a step, the states before it have a property. -/
def BeforeSteps (P : Interleaved ι σ τ → Prop) (start : Interleaved ι σ τ) (schedule : List ι)
    (i : ι) : Prop :=
  ∀ before after, schedule = before ++ i :: after → P (run act start before)

/-- All states that a schedule goes through have a property. -/
def Always (P : Interleaved ι σ τ → Prop) (start : Interleaved ι σ τ) (schedule : List ι) : Prop :=
  ∀ before, before <+: schedule → P (run act start before)

variable {act} {start state : Interleaved ι σ τ} {schedule : List ι} {i j : ι}

theorem store_step : (state.step act i).store = (act i state.store (state.threads i)).1 := rfl

theorem threads_step_self :
    (state.step act i).threads i = (act i state.store (state.threads i)).2 :=
  Function.update_self _ _ _

theorem threads_step_of_ne (h : j ≠ i) : (state.step act i).threads j = state.threads j :=
  Function.update_of_ne h _ _

theorem run_concat (schedule : List ι) (i : ι) :
    run act start (schedule ++ [i]) = (run act start schedule).step act i := by
  rw [run, List.foldl_append]
  rfl

/-- What all actions keep of the store holds after every schedule. -/
theorem store_invariant {P : σ → Prop} (hstep : ∀ i s t, P s → P (act i s t).1)
    (hstart : P start.store) (schedule : List ι) : P (run act start schedule).store := by
  induction schedule using List.reverseRecOn with
  | nil => exact hstart
  | append_singleton schedule i ih =>
      rw [run_concat, store_step]
      exact hstep i _ _ ih

/-- An invariant of a whole state that every step keeps. -/
theorem run_invariant {P : Interleaved ι σ τ → Prop}
    (hstep : ∀ state i, P state → P (state.step act i)) (hstart : P start) (schedule : List ι) :
    P (run act start schedule) := by
  induction schedule using List.reverseRecOn with
  | nil => exact hstart
  | append_singleton schedule i ih =>
      rw [run_concat]
      exact hstep _ i ih

/-- What is said of one thread changes with its own steps, and is kept by those of the others. -/
theorem thread_induction (i : ι) {Q : List ι → τ → Prop} (hstart : Q [] (start.threads i))
    (hother : ∀ schedule j t, j ≠ i → Q schedule t → Q (schedule ++ [j]) t)
    (hown : ∀ schedule, Q schedule ((run act start schedule).threads i) →
      Q (schedule ++ [i]) (act i (run act start schedule).store
        ((run act start schedule).threads i)).2) (schedule : List ι) :
    Q schedule ((run act start schedule).threads i) := by
  induction schedule using List.reverseRecOn with
  | nil => exact hstart
  | append_singleton schedule j ih =>
      rw [run_concat]
      by_cases hsame : j = i
      · subst hsame
        rw [threads_step_self]
        exact hown schedule ih
      · rw [threads_step_of_ne (Ne.symm hsame)]
        exact hother schedule j _ hsame ih

section steps

variable {P Q : Interleaved ι σ τ → Prop}

theorem beforeSteps_nil : BeforeSteps act P start [] i := by
  intro before after heq
  simp at heq

/-- A longer schedule adds one step. -/
theorem beforeSteps_concat :
    BeforeSteps act P start (schedule ++ [j]) i ↔
      BeforeSteps act P start schedule i ∧ (j = i → P (run act start schedule)) := by
  constructor
  · intro h
    constructor
    · rintro before after rfl
      exact h before (after ++ [j]) (by simp)
    · rintro rfl
      exact h schedule [] rfl
  · rintro ⟨h, hlast⟩ before after heq
    obtain rfl | ⟨rest, last, rfl⟩ := List.eq_nil_or_concat' after
    · obtain ⟨rfl, hsame⟩ := List.append_inj' heq rfl
      exact hlast (List.cons.inj hsame).1
    · rw [← List.cons_append, ← List.append_assoc] at heq
      exact h before rest (List.append_inj' heq rfl).1

/-- A step of another thread adds nothing. -/
theorem beforeSteps_concat_of_ne (h : j ≠ i) :
    BeforeSteps act P start (schedule ++ [j]) i ↔ BeforeSteps act P start schedule i := by
  rw [beforeSteps_concat]
  exact and_iff_left fun hsame => absurd hsame h

theorem beforeSteps_concat_self :
    BeforeSteps act P start (schedule ++ [i]) i ↔
      BeforeSteps act P start schedule i ∧ P (run act start schedule) := by
  rw [beforeSteps_concat]
  exact and_congr_right fun _ => ⟨fun h => h rfl, fun h _ => h⟩

theorem always_nil : Always act P start [] ↔ P start := by
  constructor
  · intro h
    exact h [] (List.prefix_refl [])
  · intro h before hbefore
    rw [List.prefix_nil.mp hbefore]
    exact h

/-- A longer schedule goes through one more state. -/
theorem always_concat :
    Always act P start (schedule ++ [j]) ↔
      Always act P start schedule ∧ P (run act start (schedule ++ [j])) := by
  constructor
  · intro h
    exact ⟨fun before hbefore => h before (hbefore.trans (List.prefix_append _ _)),
      h _ (List.prefix_refl _)⟩
  · rintro ⟨h, hlast⟩ before hbefore
    obtain rfl | hbefore := List.prefix_concat_iff.mp hbefore
    · exact hlast
    · exact h before hbefore

/-- When just the steps of one thread can end a property, it holds throughout the schedules in which
all of these steps find what keeps it. -/
theorem always_iff_beforeSteps (hstart : P start)
    (hstep : ∀ schedule j, P (run act start schedule) →
      (P (run act start (schedule ++ [j])) ↔ (j = i → Q (run act start schedule))))
    (schedule : List ι) :
    Always act P start schedule ↔ BeforeSteps act Q start schedule i := by
  induction schedule using List.reverseRecOn with
  | nil => exact iff_of_true (always_nil.mpr hstart) beforeSteps_nil
  | append_singleton schedule j ih =>
      rw [always_concat, beforeSteps_concat, ih]
      refine and_congr_right fun h => ?_
      have hbefore : P (run act start schedule) := ih.mpr h schedule (List.prefix_refl _)
      exact hstep schedule j hbefore

end steps

end Interleaved

end Foundation
