import Mathlib.Data.List.Infix
import Mathlib.Tactic.Common

/-!
# Runs of guarded steps

A step can be taken in some states only. What is said of every step of a run is compared with what
holds in every state that the run goes through.
-/

namespace Foundation

variable {σ α : Type*} {step : σ → α → Option σ}

def runSteps (step : σ → α → Option σ) (s : σ) (steps : List α) : Option σ := steps.foldlM step s

/-- Every step of a run is taken in a state that allows it. -/
def Allows (step : σ → α → Option σ) (allowed : σ → α → Prop) : σ → List α → Prop
  | _, [] => True
  | s, a :: steps => ∀ t, step s a = some t → allowed s a ∧ Allows step allowed t steps

/-- All states that a run goes through have a property. -/
def Throughout (step : σ → α → Option σ) (P : σ → Prop) (s : σ) (steps : List α) : Prop :=
  ∀ before t, before <+: steps → runSteps step s before = some t → P t

@[simp] theorem runSteps_nil (s : σ) : runSteps step s [] = some s := rfl

theorem runSteps_cons (s : σ) (a : α) (steps : List α) :
    runSteps step s (a :: steps) = (step s a).bind fun t => runSteps step t steps := by
  rw [runSteps, List.foldlM_cons]
  rfl

theorem runSteps_append (s : σ) (steps more : List α) :
    runSteps step s (steps ++ more) =
      (runSteps step s steps).bind fun t => runSteps step t more := by
  rw [runSteps, List.foldlM_append]
  rfl

theorem runSteps_append_of_eq {s t : σ} {steps more : List α} (h : runSteps step s steps = some t) :
    runSteps step s (steps ++ more) = runSteps step t more := by
  rw [runSteps_append, h]
  rfl

theorem throughout_nil {P : σ → Prop} {s : σ} : Throughout step P s [] ↔ P s := by
  constructor
  · intro h
    exact h [] s (List.prefix_refl _) rfl
  · intro h before t hbefore hrun
    rw [List.prefix_nil.mp hbefore] at hrun
    exact Option.some_inj.mp hrun ▸ h

theorem throughout_cons {P : σ → Prop} {s : σ} {a : α} {steps : List α} :
    Throughout step P s (a :: steps) ↔
      P s ∧ ∀ t, step s a = some t → Throughout step P t steps := by
  constructor
  · intro h
    refine ⟨h [] s List.nil_prefix rfl, ?_⟩
    intro t ht before u hbefore hrun
    apply h (a :: before) u (List.cons_prefix_cons.mpr ⟨rfl, hbefore⟩)
    rw [runSteps_cons, ht]
    exact hrun
  · rintro ⟨hs, hrest⟩ before u hbefore hrun
    cases before with
    | nil => exact Option.some_inj.mp hrun ▸ hs
    | cons b before =>
        obtain ⟨rfl, htail⟩ := List.cons_prefix_cons.mp hbefore
        rw [runSteps_cons] at hrun
        obtain ⟨t, ht, hrun⟩ := Option.bind_eq_some_iff.mp hrun
        exact hrest t ht before u htail hrun

theorem allows_cons {allowed : σ → α → Prop} {s t : σ} {a : α} {steps : List α}
    (hstep : step s a = some t) (ha : allowed s a) (h : Allows step allowed t steps) :
    Allows step allowed s (a :: steps) := by
  intro u hu
  obtain rfl : t = u := Option.some_inj.mp (hstep.symm.trans hu)
  exact ⟨ha, h⟩

/-- Steps that leave alone what they are allowed for can all be taken if each of them can. -/
theorem allows_map_iff {β : Type*} {allowed : σ → α → Prop} {f : β → α} (next : σ → β → σ)
    (hstep : ∀ s b, step s (f b) = some (next s b))
    (hsame : ∀ s b b', allowed (next s b) (f b') ↔ allowed s (f b')) (s : σ) (bs : List β) :
    Allows step allowed s (bs.map f) ↔ ∀ b ∈ bs, allowed s (f b) := by
  induction bs generalizing s with
  | nil => simp [Allows]
  | cons b bs ih =>
      rw [List.map_cons, Allows, List.forall_mem_cons]
      constructor
      · intro h
        obtain ⟨hb, hrest⟩ := h (next s b) (hstep s b)
        refine ⟨hb, fun b' hmem => ?_⟩
        exact (hsame s b b').mp ((ih (next s b)).mp hrest b' hmem)
      · rintro ⟨hb, hrest⟩ t ht
        obtain rfl := Option.some_inj.mp ((hstep s b).symm.trans ht)
        refine ⟨hb, (ih (next s b)).mpr fun b' hmem => ?_⟩
        exact (hsame s b b').mpr (hrest b' hmem)

theorem allows_append {allowed : σ → α → Prop} {s : σ} {steps more : List α} :
    Allows step allowed s (steps ++ more) ↔
      Allows step allowed s steps ∧
        ∀ t, runSteps step s steps = some t → Allows step allowed t more := by
  induction steps generalizing s with
  | nil => simp [Allows]
  | cons a steps ih =>
      rw [List.cons_append, Allows, Allows]
      cases hstep : step s a with
      | none => simp [runSteps_cons, hstep]
      | some t => simp [runSteps_cons, hstep, ih, and_assoc]

/-- What every allowed step keeps holds throughout the runs all of whose steps are allowed. -/
theorem throughout_of_allows {P : σ → Prop} {allowed : σ → α → Prop}
    (hstep : ∀ s a t, P s → allowed s a → step s a = some t → P t) {s : σ} (hP : P s)
    {steps : List α} (h : Allows step allowed s steps) : Throughout step P s steps := by
  induction steps generalizing s with
  | nil => exact throughout_nil.mpr hP
  | cons a steps ih =>
      refine throughout_cons.mpr ⟨hP, ?_⟩
      intro t ht
      obtain ⟨hallowed, hrest⟩ := h t ht
      exact ih (hstep s a t hP hallowed ht) hrest

theorem Throughout.imp {P Q : σ → Prop} (himp : ∀ s, P s → Q s) {s : σ} {steps : List α}
    (h : Throughout step P s steps) : Throughout step Q s steps :=
  fun before t hbefore hrun => himp t (h before t hbefore hrun)

/-- When a step ends a property just where it is not allowed, the property holds throughout the
runs all of whose steps are allowed. -/
theorem throughout_iff_allows {W P : σ → Prop} {allowed : σ → α → Prop}
    (hW : ∀ s a t, W s → step s a = some t → W t)
    (hstep : ∀ s a t, W s → P s → step s a = some t → (P t ↔ allowed s a)) {s : σ} (hs : W s)
    (hP : P s) (steps : List α) : Throughout step P s steps ↔ Allows step allowed s steps := by
  induction steps generalizing s with
  | nil => exact iff_of_true (throughout_nil.mpr hP) trivial
  | cons a steps ih =>
      rw [throughout_cons, Allows]
      constructor
      · rintro ⟨-, h⟩ t ht
        have hPt : P t := (h t ht) [] t List.nil_prefix rfl
        exact ⟨(hstep s a t hs hP ht).mp hPt, (ih (hW s a t hs ht) hPt).mp (h t ht)⟩
      · intro h
        refine ⟨hP, ?_⟩
        intro t ht
        obtain ⟨hallowed, hrest⟩ := h t ht
        exact (ih (hW s a t hs ht) ((hstep s a t hs hP ht).mpr hallowed)).mpr hrest

end Foundation
