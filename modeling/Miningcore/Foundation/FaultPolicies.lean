import Mathlib.Data.List.Basic
import Mathlib.Logic.Basic

/-!
# Policies for actions that fail

An action changes a state and may end with an exception. A policy runs an action
once, several times or not at all, and says what becomes of the exception. What
an action does when it returns and what it leaves when it throws is carried
through the policies: a retry starts again from what a failure left, a breaker
refuses to start, and a fallback does something else instead.
-/

namespace Foundation

/-- An action ends with an exception or without, and in a state. -/
def Action (σ ε : Type*) := σ → Option ε × σ

/-- An action that returns has done one thing. One that throws has kept everything, and its
exception is one of some. -/
def Settles {σ ε : Type*} (action : Action σ ε) (done kept : σ → σ → Prop) (raises : ε → Prop) :
    Prop :=
  ∀ s, match action s with
    | (none, after) => done s after
    | (some exception, after) => raises exception ∧ kept s after

/-- What is kept may be kept before and after the one thing is done. -/
structure Framed {σ : Type*} (done kept : σ → σ → Prop) : Prop where
  refl (s : σ) : kept s s
  trans {s t u : σ} : kept s t → kept t u → kept s u
  before {s t u : σ} : kept s t → done t u → done s u
  after {s t u : σ} : done s t → kept t u → done s u

namespace Action

variable {σ ε : Type*}

/-- Waits and starts again after an exception it handles, as often as it may. -/
def retry (handles : ε → Bool) (wait : ℕ → σ → σ) (action : Action σ ε) :
    ℕ → ℕ → Action σ ε
  | 0, _ => action
  | remaining + 1, attempt => fun s =>
      match action s with
      | (none, after) => (none, after)
      | (some exception, after) =>
          if handles exception then
            retry handles wait action remaining (attempt + 1) (wait attempt after)
          else (some exception, after)

/-- Does something else after an exception it handles. -/
def fallback (handles : ε → Bool) (instead action : Action σ ε) : Action σ ε := fun s =>
  match action s with
  | (none, after) => (none, after)
  | (some exception, after) =>
      if handles exception then instead after else (some exception, after)

end Action

inductive CircuitState where
  | closed
  | opened
  | halfOpen
deriving DecidableEq

/-- A circuit counts the failures in a row and may refuse actions until a time. -/
structure Circuit where
  state : CircuitState
  failures : ℕ
  blockedTill : ℕ
deriving DecidableEq

namespace Circuit

def initial : Circuit := ⟨.closed, 0, 0⟩

/-- An open circuit is half open after its time. -/
def refresh (now : ℕ) (circuit : Circuit) : Circuit :=
  if circuit.state = .opened ∧ circuit.blockedTill ≤ now then
    { circuit with state := .halfOpen }
  else circuit

/-- The circuit when it lets an action start. A half open one lets one start as a test. -/
def enter (now duration : ℕ) (circuit : Circuit) : Option Circuit :=
  match circuit.state with
  | .closed => some circuit
  | .opened => none
  | .halfOpen =>
      if circuit.blockedTill ≤ now then some { circuit with blockedTill := now + duration }
      else none

def onSuccess (circuit : Circuit) : Circuit :=
  match circuit.state with
  | .closed => { circuit with failures := 0 }
  | .halfOpen => initial
  | .opened => circuit

/-- A failure in a row that is not allowed breaks the circuit, and so does one of a test. -/
def onFailure (allowed now duration : ℕ) (circuit : Circuit) : Circuit :=
  match circuit.state with
  | .closed =>
      if circuit.failures + 1 < allowed then { circuit with failures := circuit.failures + 1 }
      else ⟨.opened, circuit.failures + 1, now + duration⟩
  | .halfOpen => { circuit with state := .opened, blockedTill := now + duration }
  | .opened => circuit

end Circuit

/-- A breaker, and where the state has its circuit and its clock. -/
structure Breaker (σ ε : Type*) where
  handles : ε → Bool
  allowed : ℕ
  duration : ℕ
  broken : ε
  clock : σ → ℕ
  circuit : σ → Circuit
  setCircuit : Circuit → σ → σ

namespace Action

variable {σ ε : Type*}

def circuitBreaker (breaker : Breaker σ ε) (action : Action σ ε) : Action σ ε := fun s =>
  let circuit := (breaker.circuit s).refresh (breaker.clock s)
  match circuit.enter (breaker.clock s) breaker.duration with
  | none => (some breaker.broken, breaker.setCircuit circuit s)
  | some entered =>
      match action (breaker.setCircuit entered s) with
      | (none, after) => (none, breaker.setCircuit (breaker.circuit after).onSuccess after)
      | (some exception, after) =>
          if breaker.handles exception then
            (some exception, breaker.setCircuit
              ((breaker.circuit after).onFailure breaker.allowed (breaker.clock after)
                breaker.duration) after)
          else (some exception, after)

end Action

section rules

variable {σ ε : Type*} {action instead : Action σ ε} {done kept : σ → σ → Prop}
  {raises : ε → Prop}

theorem Settles.returned (h : Settles action done kept raises) {s after : σ}
    (hrun : action s = (none, after)) : done s after := by
  have hsettles := h s
  rw [hrun] at hsettles
  exact hsettles

theorem Settles.thrown (h : Settles action done kept raises) {s after : σ} {exception : ε}
    (hrun : action s = (some exception, after)) : raises exception ∧ kept s after := by
  have hsettles := h s
  rw [hrun] at hsettles
  exact hsettles

/-- What is known of the outcomes may be weakened. -/
theorem Settles.mono {done' : σ → σ → Prop} {raises' : ε → Prop}
    (h : Settles action done kept raises) (hdone : ∀ s after, done s after → done' s after)
    (hraises : ∀ exception, raises exception → raises' exception) :
    Settles action done' kept raises' := by
  intro s
  rcases hrun : action s with ⟨_ | exception, after⟩
  · exact hdone s after (h.returned hrun)
  · obtain ⟨hraised, hkept⟩ := h.thrown hrun
    exact ⟨hraises exception hraised, hkept⟩

/-- Retrying does the one thing once at most. -/
theorem Settles.retry (hframed : Framed done kept) {handles : ε → Bool} {wait : ℕ → σ → σ}
    (hwait : ∀ attempt s, kept s (wait attempt s)) (h : Settles action done kept raises)
    (remaining attempt : ℕ) :
    Settles (Action.retry handles wait action remaining attempt) done kept raises := by
  induction remaining generalizing attempt with
  | zero => exact h
  | succ remaining ih =>
      intro s
      rw [Action.retry]
      dsimp only
      rcases hrun : action s with ⟨_ | exception, after⟩
      · exact h.returned hrun
      · obtain ⟨hraises, hkept⟩ := h.thrown hrun
        dsimp only
        split_ifs
        · have hagain := hframed.trans hkept (hwait attempt after)
          have hrest := ih (attempt + 1) (wait attempt after)
          rcases hretry : Action.retry handles wait action remaining (attempt + 1)
            (wait attempt after) with ⟨_ | exception, final⟩
          · rw [hretry] at hrest
            exact hframed.before hagain hrest
          · rw [hretry] at hrest
            exact ⟨hrest.1, hframed.trans hagain hrest.2⟩
        · exact ⟨hraises, hkept⟩

/-- A breaker adds the exception of a broken circuit. -/
theorem Settles.circuitBreaker (hframed : Framed done kept) {breaker : Breaker σ ε}
    (hcircuit : ∀ circuit s, kept s (breaker.setCircuit circuit s))
    (h : Settles action done kept raises) :
    Settles (Action.circuitBreaker breaker action) done kept
      fun exception => raises exception ∨ exception = breaker.broken := by
  intro s
  rw [Action.circuitBreaker]
  dsimp only
  rcases ((breaker.circuit s).refresh (breaker.clock s)).enter (breaker.clock s)
    breaker.duration with _ | entered
  · exact ⟨Or.inr rfl, hcircuit _ s⟩
  · dsimp only
    rcases hrun : action (breaker.setCircuit entered s) with ⟨_ | exception, after⟩
    · exact hframed.after (hframed.before (hcircuit entered s) (h.returned hrun))
        (hcircuit _ after)
    · obtain ⟨hraises, hkept⟩ := h.thrown hrun
      have hafter := hframed.trans (hcircuit entered s) hkept
      dsimp only
      split_ifs
      · exact ⟨Or.inl hraises, hframed.trans hafter (hcircuit _ after)⟩
      · exact ⟨Or.inl hraises, hafter⟩

/-- A fallback that returns leaves only the exceptions it does not handle. -/
theorem Settles.fallback {otherwise : σ → σ → Prop} (hframed : Framed otherwise kept)
    {handles : ε → Bool} (h : Settles action done kept raises)
    (hinstead : Settles instead otherwise kept fun _ => False) :
    Settles (Action.fallback handles instead action)
      (fun s after => done s after ∨ otherwise s after)
      kept fun exception => raises exception ∧ handles exception = false := by
  intro s
  rw [Action.fallback]
  rcases hrun : action s with ⟨_ | exception, after⟩
  · exact Or.inl (h.returned hrun)
  · obtain ⟨hraises, hkept⟩ := h.thrown hrun
    dsimp only
    split_ifs with hhandles
    · rcases hfallback : instead after with ⟨_ | exception, final⟩
      · exact Or.inr (hframed.before hkept (hinstead.returned hfallback))
      · exact (hinstead.thrown hfallback).1.elim
    · exact ⟨⟨hraises, Bool.eq_false_iff.mpr hhandles⟩, hkept⟩

end rules

/-!
## Views of actions

An action may be about a part of the state, with the rest written beside. The policies
around it then do to that part what they do to it alone.
-/

/-- An action does to a view of the state what another does to the viewed. -/
def Projects {σ τ ε : Type*} (view : σ → τ) (action : Action σ ε) (inner : Action τ ε) : Prop :=
  ∀ s, ((action s).1, view (action s).2) = inner (view s)

/-- A breaker whose circuit and clock are in a part of the state. -/
def Breaker.lift {σ τ ε : Type*} (breaker : Breaker τ ε) (view : σ → τ) (set : τ → σ → σ) :
    Breaker σ ε where
  handles := breaker.handles
  allowed := breaker.allowed
  duration := breaker.duration
  broken := breaker.broken
  clock s := breaker.clock (view s)
  circuit s := breaker.circuit (view s)
  setCircuit circuit s := set (breaker.setCircuit circuit (view s)) s

section views

variable {σ τ ε : Type*} {view : σ → τ} {action instead : Action σ ε}
  {inner innerInstead : Action τ ε} {handles : ε → Bool}

theorem Projects.eq (h : Projects view action inner) {s after : σ} {exception : Option ε}
    (hrun : action s = (exception, after)) : inner (view s) = (exception, view after) := by
  have hview := h s
  rw [hrun] at hview
  exact hview.symm

theorem Projects.retry (h : Projects view action inner) {wait : ℕ → σ → σ}
    {innerWait : ℕ → τ → τ} (hwait : ∀ attempt s, view (wait attempt s) =
      innerWait attempt (view s)) (remaining attempt : ℕ) :
    Projects view (Action.retry handles wait action remaining attempt)
      (Action.retry handles innerWait inner remaining attempt) := by
  induction remaining generalizing attempt with
  | zero => exact h
  | succ remaining ih =>
      intro s
      rw [Action.retry, Action.retry]
      dsimp only
      rcases hrun : action s with ⟨_ | exception, after⟩
      · rw [h.eq hrun]
      · rw [h.eq hrun]
        dsimp only
        split_ifs
        · rw [← hwait]
          exact ih (attempt + 1) _
        · rfl

theorem Projects.fallback (h : Projects view action inner)
    (hinstead : Projects view instead innerInstead) :
    Projects view (Action.fallback handles instead action)
      (Action.fallback handles innerInstead inner) := by
  intro s
  rw [Action.fallback, Action.fallback]
  rcases hrun : action s with ⟨_ | exception, after⟩
  · rw [h.eq hrun]
  · rw [h.eq hrun]
    dsimp only
    split_ifs
    · exact hinstead after
    · rfl

theorem Projects.circuitBreaker (h : Projects view action inner) (breaker : Breaker τ ε)
    {set : τ → σ → σ} (hset : ∀ t s, view (set t s) = t) :
    Projects view (Action.circuitBreaker (breaker.lift view set) action)
      (Action.circuitBreaker breaker inner) := by
  have hcircuit (circuit : Circuit) (s : σ) :
      view ((breaker.lift view set).setCircuit circuit s) = breaker.setCircuit circuit (view s) :=
    hset _ _
  intro s
  rw [Action.circuitBreaker, Action.circuitBreaker]
  change _ = match ((((breaker.lift view set).circuit s).refresh
    ((breaker.lift view set).clock s)).enter ((breaker.lift view set).clock s)
      (breaker.lift view set).duration) with
    | none => _
    | some entered => _
  rcases (((breaker.lift view set).circuit s).refresh ((breaker.lift view set).clock s)).enter
    ((breaker.lift view set).clock s) (breaker.lift view set).duration with _ | entered
  · exact congrArg (Prod.mk _) (hcircuit _ s)
  · dsimp only
    rw [← hcircuit entered s]
    rcases hrun : action ((breaker.lift view set).setCircuit entered s) with
      ⟨_ | exception, after⟩
    · rw [h.eq hrun]
      exact congrArg (Prod.mk none) (hcircuit _ after)
    · rw [h.eq hrun]
      change _ = if (breaker.lift view set).handles exception then _ else _
      dsimp only
      split_ifs
      · exact congrArg (Prod.mk (some exception)) (hcircuit _ after)
      · rfl

end views

/-!
## Calls whose failures are passed over

A computation asks others, and goes on without an answer when a call fails. Beside
what it ends with stands whether all its calls were answered, so that what it
concludes can be held against what it was told.
-/

/-- What a computation ends with, and whether all its calls were answered. -/
structure Guarded (ε α : Type) where
  outcome : Except ε α
  answered : Bool

namespace Guarded

variable {ε α β : Type}

instance instMonad : Monad (Guarded ε) where
  pure a := ⟨.ok a, true⟩
  bind x f :=
    match x.outcome with
    | .error e => ⟨.error e, x.answered⟩
    | .ok a => ⟨(f a).outcome, x.answered && (f a).answered⟩

def throw (e : ε) : Guarded ε α := ⟨.error e, true⟩

/-- A call that fails is no answer. -/
def ask (answer : Option α) : Guarded ε (Option α) := ⟨.ok answer, answer.isSome⟩

/-- Calls that are made together. -/
def askAll (answers : List (Option α)) : Guarded ε (List (Option α)) :=
  ⟨.ok answers, answers.all Option.isSome⟩

/-- A call whose failure is not passed over. -/
def call (answer : Except ε α) : Guarded ε α := ⟨answer, answer.isOk⟩

@[simp] theorem outcome_pure (a : α) : (pure a : Guarded ε α).outcome = .ok a := rfl

@[simp] theorem answered_pure (a : α) : (pure a : Guarded ε α).answered = true := rfl

@[simp] theorem outcome_throw (e : ε) : (throw e : Guarded ε α).outcome = .error e := rfl

@[simp] theorem answered_throw (e : ε) : (throw e : Guarded ε α).answered = true := rfl

@[simp] theorem outcome_ask_bind (answer : Option α) (f : Option α → Guarded ε β) :
    (ask answer >>= f).outcome = (f answer).outcome := rfl

@[simp] theorem answered_ask_bind (answer : Option α) (f : Option α → Guarded ε β) :
    (ask answer >>= f).answered = (answer.isSome && (f answer).answered) := rfl

theorem bind_of_outcome_ok {x : Guarded ε α} {a : α} (h : x.outcome = .ok a)
    (f : α → Guarded ε β) : x >>= f = ⟨(f a).outcome, x.answered && (f a).answered⟩ := by
  obtain ⟨outcome, answered⟩ := x
  obtain rfl := h
  rfl

end Guarded

end Foundation
