import Miningcore.Api.AdminGate
import Miningcore.Foundation.GuardedRuns
import Miningcore.Foundation.SpacedTimes
import Mathlib.Algebra.Order.Ring.Int
import Mathlib.Logic.Function.Basic

/-!
# The lockout of the login page

The attempts of an address are counted in an entry that is read before the password is checked and
written after it. Requests that overlap write the same count.

## Implementation notes

The requests of one address are numbered. A request is followed through the reading of the entry,
the check of the password and the writing of the entry, each at a time of its own. The wrong
passwords are remembered since the last login that has removed the entry.
-/

namespace Miningcore.Api

open Foundation

/-- The failures, and the end of the ban. -/
abbrev LoginAttempts := Int × Option Int

inductive LoginPhase where
  | unread
  | read (entry : Option LoginAttempts)
  | wrong (failures : Int)
  | right
  | done
deriving DecidableEq

structure LoginState where
  /-- The entry of the address. -/
  entry : Option LoginAttempts
  phases : ℕ → LoginPhase
  clock : Int
  /-- The times at which a wrong password was found, the latest first. -/
  wrongTimes : List Int

namespace LoginState

def initial (clock : Int) : LoginState where
  entry := none
  phases := fun _ => .unread
  clock := clock
  wrongTimes := []

inductive Step where
  | read (request : ℕ) (now : Int)
  | check (request : ℕ) (now : Int) (password : String)
  | write (request : ℕ) (now : Int)

def Step.now : Step → Int
  | .read _ now | .check _ now _ | .write _ now => now

/-- The failures of an entry, none without one. -/
def failuresOf (entry : Option LoginAttempts) : Int := (entry.map Prod.fst).getD 0

def bannedUntil (entry : Option LoginAttempts) : Option Int := entry.bind Prod.snd

/-- The sum of 32-bit integers. -/
def addInt32 (a b : Int) : Int := (a + b).bmod (2 ^ 32)

def setPhase (s : LoginState) (request : ℕ) (phase : LoginPhase) : LoginState :=
  { s with phases := Function.update s.phases request phase }

section login

variable (cfg : AdminPanelConfig)

/-- In ticks. -/
def banDuration : Int := cfg.loginBanDuration * ticksPerSecond

def readEntry (s : LoginState) (request : ℕ) (now : Int) : LoginState :=
  if (bannedUntil s.entry).any (now < ·) then s.setPhase request .done
  else s.setPhase request (.read s.entry)

def checkPassword (s : LoginState) (request : ℕ) (now : Int) (entry : Option LoginAttempts)
    (password : String) : LoginState :=
  if cfg.secret = some password then s.setPhase request .right
  else { s.setPhase request (.wrong (failuresOf entry)) with wrongTimes := now :: s.wrongTimes }

/-- The entry after a wrong password. -/
def failedEntry (failures now : Int) : LoginAttempts :=
  (addInt32 failures 1,
    if addInt32 failures 1 ≥ cfg.maxLoginAttempts then some (now + banDuration cfg) else none)

/-- What a request does next, if it can. -/
def act (s : LoginState) : Step → Option LoginState
  | .read request now =>
      match s.phases request with
      | .unread => some (s.readEntry request now)
      | _ => none
  | .check request now password =>
      match s.phases request with
      | .read entry => some (s.checkPassword cfg request now entry password)
      | _ => none
  | .write request now =>
      match s.phases request with
      | .wrong failures =>
          some { s.setPhase request .done with entry := some (failedEntry cfg failures now) }
      | .right => some { s.setPhase request .done with entry := none, wrongTimes := [] }
      | _ => none

/-- Time does not go back. -/
def step (s : LoginState) (a : Step) : Option LoginState :=
  if s.clock ≤ a.now then (s.act cfg a).map fun t => { t with clock := a.now } else none

/-- In every window of the length of a ban at most the configured number of passwords was wrong. -/
def LocksOut (s : LoginState) : Prop :=
  ∀ start, s.wrongTimes.countP (inWindow (banDuration cfg) start) ≤ cfg.maxLoginAttempts.toNat

/-- A wrong password is checked when the entry is as it was read, while no other wrong password is
to be counted yet. At least one attempt is allowed, and the count does not run over. -/
def Keeps (s : LoginState) : Step → Prop
  | .check request _ password =>
      cfg.secret ≠ some password →
        0 < cfg.maxLoginAttempts ∧ failuresOf s.entry < 2 ^ 31 - 1 ∧
          s.phases request = .read s.entry ∧ ∀ other failures, s.phases other ≠ .wrong failures
  | _ => True

end login

/-! ### The invariant -/

/-- The counts are those of all the wrong passwords, but for one that is to be written. -/
structure Counted (cfg : AdminPanelConfig) (s : LoginState) : Prop where
  spaced : Spaced cfg.maxLoginAttempts.toNat (banDuration cfg) s.wrongTimes
  allowed : s.wrongTimes ≠ [] → 0 < cfg.maxLoginAttempts
  head_le : ∀ last ∈ s.wrongTimes.head?, last ≤ s.clock
  nonneg : 0 ≤ failuresOf s.entry
  /-- A request that goes on has seen the end of the ban. -/
  read : ∀ request entry, s.phases request = .read entry →
    ∀ ending ∈ bannedUntil entry, ending ≤ s.clock
  wrong_unique : ∀ request other failures failures', s.phases request = .wrong failures →
    s.phases other = .wrong failures' → request = other
  wrong : ∀ request failures, s.phases request = .wrong failures →
    0 ≤ failures ∧ failures < 2 ^ 31 - 1 ∧ s.wrongTimes.length ≤ failures + 1
  settled : (∀ request failures, s.phases request ≠ .wrong failures) →
    s.wrongTimes.length ≤ failuresOf s.entry ∧
      (cfg.maxLoginAttempts ≤ s.wrongTimes.length → ∀ last ∈ s.wrongTimes.head?,
        ∃ ending ∈ bannedUntil s.entry, last + banDuration cfg ≤ ending)

variable {cfg : AdminPanelConfig} {s t : LoginState}

theorem counted_initial (cfg : AdminPanelConfig) (clock : Int) : Counted cfg (initial clock) where
  spaced := trivial
  allowed := by
    intro h
    exact absurd rfl h
  head_le := by
    intro last h
    cases h
  nonneg := le_rfl
  read := by
    intro request entry h
    cases h
  wrong_unique := by
    intro request other failures failures' h
    cases h
  wrong := by
    intro request failures h
    cases h
  settled := by
    intro _
    refine ⟨le_rfl, ?_⟩
    intro _ last h
    cases h

theorem Counted.locksOut (h : Counted cfg s) : LocksOut cfg s := by
  intro start
  by_cases hnil : s.wrongTimes = []
  · rw [hnil]
    exact Nat.zero_le _
  · have hpos : 0 < cfg.maxLoginAttempts.toNat := Int.pos_iff_toNat_pos.mp (h.allowed hnil)
    exact h.spaced.countP_inWindow_le hpos start

/-- Time goes on. -/
theorem Counted.later (h : Counted cfg s) {now : Int} (hnow : s.clock ≤ now) :
    Counted cfg { s with clock := now } where
  spaced := h.spaced
  allowed := h.allowed
  head_le := fun last hlast => (h.head_le last hlast).trans hnow
  nonneg := h.nonneg
  read := fun request entry hread ending hending =>
    (h.read request entry hread ending hending).trans hnow
  wrong_unique := h.wrong_unique
  wrong := h.wrong
  settled := h.settled

@[simp] theorem phases_setPhase_self (s : LoginState) (request : ℕ) (phase : LoginPhase) :
    (s.setPhase request phase).phases request = phase := Function.update_self _ _ _

theorem phases_setPhase_of_ne (s : LoginState) {request other : ℕ} (h : other ≠ request)
    (phase : LoginPhase) : (s.setPhase request phase).phases other = s.phases other :=
  Function.update_of_ne h _ _

/-- The other requests are where they were. -/
theorem setPhase_cases {request other : ℕ} {phase phase' : LoginPhase}
    (h : (s.setPhase request phase).phases other = phase') :
    other = request ∧ phase = phase' ∨ other ≠ request ∧ s.phases other = phase' := by
  by_cases hother : other = request
  · subst hother
    rw [phases_setPhase_self] at h
    exact Or.inl ⟨rfl, h⟩
  · rw [phases_setPhase_of_ne s hother] at h
    exact Or.inr ⟨hother, h⟩

/-- A phase that a request is not sent to is one from before. -/
theorem phases_of_setPhase {request other : ℕ} {phase phase' : LoginPhase}
    (h : (s.setPhase request phase).phases other = phase') (hne : phase ≠ phase') :
    other ≠ request ∧ s.phases other = phase' := by
  obtain ⟨-, hphase⟩ | hother := setPhase_cases h
  · exact absurd hphase hne
  · exact hother

/-- The requests that go on have still seen the end of the ban. -/
theorem Counted.read_setPhase (h : Counted cfg s) {request : ℕ} {phase : LoginPhase}
    (hread : ∀ entry, phase = .read entry → ∀ ending ∈ bannedUntil entry, ending ≤ s.clock) :
    ∀ other entry, (s.setPhase request phase).phases other = .read entry →
      ∀ ending ∈ bannedUntil entry, ending ≤ s.clock := by
  intro other entry hother
  obtain ⟨-, hphase⟩ | ⟨-, hother⟩ := setPhase_cases hother
  · exact hread entry hphase
  · exact h.read other entry hother

/-- There is still one wrong password at most when a request finds none. -/
theorem Counted.wrong_unique_setPhase (h : Counted cfg s) {request : ℕ} {phase : LoginPhase}
    (hafter : ∀ failures, phase ≠ .wrong failures) :
    ∀ first second failures failures', (s.setPhase request phase).phases first = .wrong failures →
      (s.setPhase request phase).phases second = .wrong failures' → first = second := by
  intro first second failures failures' hfirst hsecond
  obtain ⟨-, hfirst⟩ := phases_of_setPhase hfirst (hafter failures)
  obtain ⟨-, hsecond⟩ := phases_of_setPhase hsecond (hafter failures')
  exact h.wrong_unique first second failures failures' hfirst hsecond

/-- A request that has not found a wrong password goes to a phase in which it has not either. -/
theorem Counted.setPhase (h : Counted cfg s) {request : ℕ} {phase : LoginPhase}
    (hbefore : ∀ failures, s.phases request ≠ .wrong failures)
    (hafter : ∀ failures, phase ≠ .wrong failures)
    (hread : ∀ entry, phase = .read entry → ∀ ending ∈ bannedUntil entry, ending ≤ s.clock) :
    Counted cfg (s.setPhase request phase) where
  spaced := h.spaced
  allowed := h.allowed
  head_le := h.head_le
  nonneg := h.nonneg
  read := h.read_setPhase hread
  wrong_unique := h.wrong_unique_setPhase hafter
  wrong := by
    intro other failures hother
    exact h.wrong other failures (phases_of_setPhase hother (hafter failures)).2
  settled := by
    intro hnone
    apply h.settled
    intro other failures hother
    by_cases heq : other = request
    · exact hbefore failures (heq ▸ hother)
    · apply hnone other failures
      rw [phases_setPhase_of_ne s heq]
      exact hother

theorem addInt32_one {a : Int} (hlow : 0 ≤ a) (hhigh : a < 2 ^ 31 - 1) : addInt32 a 1 = a + 1 := by
  rw [addInt32, Int.bmod_eq_of_le] <;> omega

theorem Counted.readEntry (h : Counted cfg s) {request : ℕ} (hphase : s.phases request = .unread) :
    Counted cfg (s.readEntry request s.clock) := by
  have hbefore : ∀ failures, s.phases request ≠ .wrong failures := by
    intro failures hwrong
    rw [hphase] at hwrong
    cases hwrong
  rw [LoginState.readEntry]
  split
  · apply h.setPhase hbefore
    · intro failures hwrong
      cases hwrong
    · intro entry hentry
      cases hentry
  · rename_i hfree
    apply h.setPhase hbefore
    · intro failures hwrong
      cases hwrong
    · rintro entry hentry ending hending
      obtain rfl : s.entry = entry := LoginPhase.read.inj hentry
      rw [Option.mem_def.mp hending] at hfree
      simpa using hfree

theorem Counted.rightPassword (h : Counted cfg s) {request : ℕ} {entry : Option LoginAttempts}
    (hphase : s.phases request = .read entry) : Counted cfg (s.setPhase request .right) := by
  apply h.setPhase
  · intro failures hwrong
    rw [hphase] at hwrong
    cases hwrong
  · intro failures hwrong
    cases hwrong
  · intro other hother
    cases hother

/-- A wrong password that the next ban covers. -/
theorem Counted.wrongPassword (h : Counted cfg s) {request : ℕ} (hmax : 0 < cfg.maxLoginAttempts)
    (hsmall : failuresOf s.entry < 2 ^ 31 - 1) (hphase : s.phases request = .read s.entry)
    (hnone : ∀ other failures, s.phases other ≠ .wrong failures) :
    Counted cfg { s.setPhase request (.wrong (failuresOf s.entry)) with
      wrongTimes := s.clock :: s.wrongTimes } where
  spaced := by
    obtain ⟨-, hban⟩ := h.settled hnone
    refine ⟨?_, h.spaced⟩
    intro last hlast
    refine ⟨h.head_le last hlast, ?_⟩
    intro hmany
    obtain ⟨ending, hending, hle⟩ := hban (Int.toNat_le.mp hmany) last hlast
    exact hle.trans (h.read request s.entry hphase ending hending)
  allowed := fun _ => hmax
  head_le := by
    intro last hlast
    obtain rfl := Option.mem_some_iff.mp hlast
    exact le_rfl
  nonneg := h.nonneg
  read := by
    apply h.read_setPhase
    intro entry hwrong
    cases hwrong
  wrong_unique := by
    intro first second failures failures' hfirst hsecond
    obtain ⟨rfl, -⟩ | ⟨-, hfirst⟩ := setPhase_cases hfirst
    · obtain ⟨rfl, -⟩ | ⟨-, hsecond⟩ := setPhase_cases hsecond
      · rfl
      · exact absurd hsecond (hnone second failures')
    · exact absurd hfirst (hnone first failures)
  wrong := by
    intro other failures hother
    obtain ⟨-, hwrong⟩ | ⟨-, hother⟩ := setPhase_cases hother
    · obtain rfl := LoginPhase.wrong.inj hwrong
      obtain ⟨hcount, -⟩ := h.settled hnone
      refine ⟨h.nonneg, hsmall, ?_⟩
      rw [List.length_cons]
      omega
    · exact absurd hother (hnone other failures)
  settled := by
    intro hsettled
    exact absurd (phases_setPhase_self s request _) (hsettled request (failuresOf s.entry))

/-- The count is written. -/
theorem Counted.writeWrong (h : Counted cfg s) {request : ℕ} {failures : Int}
    (hphase : s.phases request = .wrong failures) :
    Counted cfg { s.setPhase request .done with
      entry := some (failedEntry cfg failures s.clock) } := by
  obtain ⟨hlow, hhigh, hcount⟩ := h.wrong request failures hphase
  have hentry : failedEntry cfg failures s.clock =
      (failures + 1, if failures + 1 ≥ cfg.maxLoginAttempts then
        some (s.clock + banDuration cfg) else none) := by
    rw [failedEntry, addInt32_one hlow hhigh]
  exact {
    spaced := h.spaced
    allowed := h.allowed
    head_le := h.head_le
    nonneg := by
      rw [hentry]
      exact Int.le_add_one hlow
    read := by
      apply h.read_setPhase
      intro entry hdone
      cases hdone
    wrong_unique := by
      apply h.wrong_unique_setPhase
      intro failures hdone
      cases hdone
    wrong := by
      intro other failures' hother
      obtain ⟨hne, hother⟩ := phases_of_setPhase hother (by simp)
      exact absurd (h.wrong_unique other request failures' failures hother hphase) hne
    settled := by
      intro _
      rw [hentry]
      refine ⟨hcount, ?_⟩
      intro hmany last hlast
      refine ⟨s.clock + banDuration cfg, ?_, ?_⟩
      · exact if_pos (hmany.trans hcount)
      · exact Int.add_le_add_right (h.head_le last hlast) _ }

/-- A login removes the entry. -/
theorem Counted.writeRight (h : Counted cfg s) (request : ℕ) :
    Counted cfg { s.setPhase request .done with entry := none, wrongTimes := [] } where
  spaced := trivial
  allowed := by
    intro hne
    exact absurd rfl hne
  head_le := by
    intro last hlast
    cases hlast
  nonneg := le_rfl
  read := by
    apply h.read_setPhase
    intro entry hdone
    cases hdone
  wrong_unique := by
    apply h.wrong_unique_setPhase
    intro failures hdone
    cases hdone
  wrong := by
    intro other failures hother
    obtain ⟨-, hother⟩ := phases_of_setPhase hother (by simp)
    obtain ⟨hlow, hhigh, -⟩ := h.wrong other failures hother
    exact ⟨hlow, hhigh, Int.le_add_one hlow⟩
  settled := by
    intro _
    refine ⟨le_rfl, ?_⟩
    intro _ last hlast
    cases hlast

theorem Counted.act (h : Counted cfg s) {a : Step} (hclock : s.clock = a.now)
    (hkeeps : Keeps cfg s a) (hact : s.act cfg a = some t) : Counted cfg t := by
  cases a with
  | read request now =>
      obtain rfl : s.clock = now := hclock
      rw [LoginState.act] at hact
      split at hact
      · rename_i hphase
        rw [← Option.some_inj.mp hact]
        exact h.readEntry hphase
      · cases hact
  | check request now password =>
      obtain rfl : s.clock = now := hclock
      rw [LoginState.act] at hact
      split at hact
      · rename_i entry hphase
        rw [← Option.some_inj.mp hact, checkPassword]
        split
        · exact h.rightPassword hphase
        · rename_i hwrong
          obtain ⟨hmax, hsmall, hsame, hnone⟩ := hkeeps hwrong
          obtain rfl : entry = s.entry := LoginPhase.read.inj (hphase.symm.trans hsame)
          exact h.wrongPassword hmax hsmall hsame hnone
      · cases hact
  | write request now =>
      obtain rfl : s.clock = now := hclock
      rw [LoginState.act] at hact
      split at hact
      · rename_i failures hphase
        rw [← Option.some_inj.mp hact]
        exact h.writeWrong hphase
      · rw [← Option.some_inj.mp hact]
        exact h.writeRight request
      · cases hact

/-- No action looks at the clock of the state. -/
theorem act_clock (cfg : AdminPanelConfig) (s : LoginState) (now : Int) (a : Step) :
    { s with clock := now }.act cfg a = (s.act cfg a).map fun t => { t with clock := now } := by
  cases a with
  | read request time =>
      rw [LoginState.act, LoginState.act]
      cases hphase : s.phases request <;> simp only [Option.map_none, Option.map_some]
      rw [LoginState.readEntry, LoginState.readEntry]
      split <;> rfl
  | check request time password =>
      rw [LoginState.act, LoginState.act]
      cases hphase : s.phases request <;> simp only [Option.map_none, Option.map_some]
      rw [checkPassword, checkPassword]
      split <;> rfl
  | write request time =>
      rw [LoginState.act, LoginState.act]
      cases hphase : s.phases request <;> simp only [Option.map_none, Option.map_some] <;> rfl

theorem keeps_clock {now : Int} {a : Step} (h : Keeps cfg s a) :
    Keeps cfg { s with clock := now } a := by
  cases a <;> exact h

theorem Counted.step (h : Counted cfg s) {a : Step} (hkeeps : Keeps cfg s a)
    (hstep : s.step cfg a = some t) : Counted cfg t := by
  obtain ⟨hnow, ht⟩ := Option.ite_none_right_eq_some.mp hstep
  rw [← act_clock] at ht
  exact (h.later hnow).act rfl (keeps_clock hkeeps) ht

/-- When wrong passwords are counted one at a time, the lockout holds at every time. -/
theorem locksOut_of_keeps (cfg : AdminPanelConfig) (clock : Int) (steps : List Step)
    (h : Allows (LoginState.step cfg) (Keeps cfg) (initial clock) steps) :
    Throughout (LoginState.step cfg) (LocksOut cfg) (initial clock) steps := by
  have hcounted : Throughout (LoginState.step cfg) (Counted cfg) (initial clock) steps :=
    throughout_of_allows (fun s a t hs hkeeps hstep => hs.step hkeeps hstep)
      (counted_initial cfg clock) h
  exact hcounted.imp fun s hs => hs.locksOut

/-! ### Requests that overlap -/

/-- The requests read the entry, and then they check their passwords. -/
def overlapping (clock : Int) (password : String) (count : ℕ) : List Step :=
  (List.range count).map (fun request => .read request clock) ++
    (List.range count).map fun request => .check request clock password

/-- The first requests have checked their passwords, the others have read the entry. -/
def checkedState (clock : Int) (checked count : ℕ) : LoginState where
  entry := none
  phases := fun request =>
    if request < checked then .wrong 0 else if request < count then .read none else .unread
  clock := clock
  wrongTimes := List.replicate checked clock

theorem step_of_act {a : Step} (hclock : s.clock = a.now) (hact : s.act cfg a = some t)
    (ht : t.clock = a.now) : s.step cfg a = some t := by
  rw [LoginState.step, if_pos hclock.le, hact, Option.map_some, ← ht]

theorem step_read (cfg : AdminPanelConfig) (clock : Int) (count : ℕ) :
    (checkedState clock 0 count).step cfg (.read count clock) =
      some (checkedState clock 0 (count + 1)) := by
  have hunread : (checkedState clock 0 count).phases count = .unread := by simp [checkedState]
  have hphases : Function.update (checkedState clock 0 count).phases count (.read none) =
      (checkedState clock 0 (count + 1)).phases := by
    ext request
    by_cases hsame : request = count
    · simp [checkedState, hsame]
    · have hlt : request < count + 1 ↔ request < count := by omega
      simp only [checkedState, Function.update_of_ne hsame, Nat.not_lt_zero, if_false,
        if_congr hlt rfl rfl]
  apply step_of_act rfl _ rfl
  rw [LoginState.act, hunread]
  exact congrArg some (congrArg (fun phases => { initial clock with phases := phases }) hphases)

theorem step_check (cfg : AdminPanelConfig) (clock : Int) {password : String}
    (hwrong : cfg.secret ≠ some password) {checked count : ℕ} (hlt : checked < count) :
    (checkedState clock checked count).step cfg (.check checked clock password) =
      some (checkedState clock (checked + 1) count) := by
  have hread : (checkedState clock checked count).phases checked = .read none := by
    simp [checkedState, hlt]
  have hphases : Function.update (checkedState clock checked count).phases checked (.wrong 0) =
      (checkedState clock (checked + 1) count).phases := by
    ext request
    by_cases hsame : request = checked
    · simp [checkedState, hsame]
    · have hless : request < checked + 1 ↔ request < checked := by omega
      simp only [checkedState, Function.update_of_ne hsame, if_congr hless rfl rfl]
  apply step_of_act rfl _ rfl
  rw [LoginState.act, hread]
  simp only [checkPassword, if_neg hwrong]
  exact congrArg some (congrArg (fun phases =>
    { checkedState clock (checked + 1) count with phases := phases }) hphases)

theorem run_reads (cfg : AdminPanelConfig) (clock : Int) (count : ℕ) :
    runSteps (LoginState.step cfg) (initial clock)
      ((List.range count).map fun request => .read request clock) =
        some (checkedState clock 0 count) := by
  induction count with
  | zero => rfl
  | succ count ih =>
      rw [List.range_succ, List.map_append, runSteps_append_of_eq ih, List.map_singleton,
        runSteps_cons, step_read]
      rfl

theorem run_checks (cfg : AdminPanelConfig) (clock : Int) {password : String}
    (hwrong : cfg.secret ≠ some password) {checked count : ℕ} (hle : checked ≤ count) :
    runSteps (LoginState.step cfg) (checkedState clock 0 count)
      ((List.range checked).map fun request => .check request clock password) =
        some (checkedState clock checked count) := by
  induction checked with
  | zero => rfl
  | succ checked ih =>
      rw [List.range_succ, List.map_append, runSteps_append_of_eq (ih (Nat.le_of_succ_le hle)),
        List.map_singleton, runSteps_cons, step_check cfg clock hwrong hle]
      rfl

/-- Any number of wrong passwords can be checked at one time. -/
theorem run_overlapping (cfg : AdminPanelConfig) (clock : Int) {password : String}
    (hwrong : cfg.secret ≠ some password) (count : ℕ) :
    runSteps (LoginState.step cfg) (initial clock) (overlapping clock password count) =
      some (checkedState clock count count) := by
  rw [overlapping, runSteps_append_of_eq (run_reads cfg clock count)]
  exact run_checks cfg clock hwrong le_rfl

/-- The panel with its defaults. -/
def defaultPanel : AdminPanelConfig := { enabled := true, password := some "secret" }

/-- Six requests read the entry before one of them has written it. -/
theorem not_locksOut_overlapping :
    ¬∀ (cfg : AdminPanelConfig) (clock : Int) (steps : List Step) (s : LoginState),
      runSteps (LoginState.step cfg) (initial clock) steps = some s → LocksOut cfg s := by
  intro h
  have hwrong : defaultPanel.secret ≠ some "guess" := by decide
  have hlocks := h defaultPanel 0 _ _ (run_overlapping defaultPanel 0 hwrong 6) 0
  revert hlocks
  decide

/-- Two requests, one after the other. -/
def oneByOne : List Step :=
  [.read 0 0, .check 0 1 "guess", .write 0 2, .read 1 3, .check 1 4 "guess", .write 1 5]

theorem allows_oneByOne :
    Allows (LoginState.step defaultPanel) (Keeps defaultPanel) (initial 0) oneByOne := by
  refine allows_cons rfl trivial (allows_cons rfl ?_ (allows_cons rfl trivial
    (allows_cons rfl trivial (allows_cons rfl ?_ (allows_cons rfl trivial trivial)))))
  · intro _
    refine ⟨by decide, by decide, rfl, ?_⟩
    intro other failures hother
    change Function.update (fun _ => LoginPhase.unread) 0 (.read none) other = _ at hother
    by_cases hfirst : other = 0 <;> simp [hfirst] at hother
  · intro _
    refine ⟨by decide, by decide, rfl, ?_⟩
    intro other failures hother
    change Function.update (Function.update (Function.update (Function.update
      (fun _ => LoginPhase.unread) 0 (.read none)) 0 (.wrong 0)) 0 .done) 1
        (.read (some (1, none))) other = _ at hother
    by_cases hfirst : other = 0 <;> by_cases hsecond : other = 1 <;>
      simp [hfirst, hsecond] at hother

theorem locksOut_oneByOne :
    Throughout (LoginState.step defaultPanel) (LocksOut defaultPanel) (initial 0) oneByOne :=
  locksOut_of_keeps defaultPanel 0 oneByOne allows_oneByOne

end LoginState

end Miningcore.Api
