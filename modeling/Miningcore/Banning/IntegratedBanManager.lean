import Mathlib.Algebra.Order.Group.Int
import Miningcore.Foundation.ExpiringCache

/-!
# The integrated ban manager

A ban is an entry of a memory cache under the text of the address: it holds until
the entry ends, and any other ban of the address sets the entry again. Bans that
escalate count the strikes of an address, for as long as the process lives.

## Implementation notes

Times and durations are ticks of 100 ns. The cache ends an entry at the time it
was set plus its duration, and throws when that is beyond the last date; nothing
is set then. An address is its canonical text.
-/

namespace Miningcore.Banning

open Foundation

def ticksPerSecond : ℕ := 10000000

/-- `DateTime.MaxValue` -/
def maxDateTime : ℕ := 3155378975999999999

/-- `TimeSpan.MaxValue` -/
def maxTimeSpan : ℕ := 9223372036854775807

def escalation : List ℕ :=
  [10 * ticksPerSecond,
    60 * ticksPerSecond,
    5 * 60 * ticksPerSecond,
    30 * 60 * ticksPerSecond,
    2 * 3600 * ticksPerSecond,
    24 * 3600 * ticksPerSecond,
    maxTimeSpan]

inductive BanException where
  | argument
  | argumentOutOfRange
  | indexOutOfRange
deriving DecidableEq

structure IntegratedBanManager where
  cache : ExpiringCache String ℕ
  banCounts : String → Option Int32

def isLoopback (address : String) : Bool :=
  address == "127.0.0.1" || address == "::1"

namespace IntegratedBanManager

def initial : IntegratedBanManager where
  cache := .empty
  banCounts _ := none

variable (manager : IntegratedBanManager)

def IsBanned (now : ℕ) (address : String) : Prop :=
  manager.cache.Contains now address

instance decidableIsBanned (now : ℕ) (address : String) :
    Decidable (manager.IsBanned now address) :=
  inferInstanceAs (Decidable (manager.cache.Contains now address))

/-- `cache.Set(key, string.Empty, duration)` -/
def set (now : ℕ) (key : String) (duration : ℕ) : IntegratedBanManager × Option BanException :=
  if now + duration ≤ maxDateTime then
    ({ manager with cache := manager.cache.set key (now + duration) }, none)
  else (manager, some .argumentOutOfRange)

def ban (now : ℕ) (address : String) (duration : ℤ) : IntegratedBanManager × Option BanException :=
  if duration ≤ 0 then (manager, some .argument)
  else if isLoopback address then (manager, none)
  else manager.set now address duration.toNat

/-- The count of a strike. -/
def nextCount (address : String) : Int32 :=
  match manager.banCounts address with
  | none => 1
  | some count => count + 1

def strike (address : String) : IntegratedBanManager :=
  { manager with
    banCounts := fun other =>
      if other = address then some (manager.nextCount address) else manager.banCounts other }

/-- The duration of a strike by its count. -/
def strikeDuration (count : Int32) : Option ℕ :=
  let idx := min (count - 1).toInt (escalation.length - 1)
  if idx < 0 then none else escalation[idx.toNat]?

def escalateBan (now : ℕ) (address : String) : IntegratedBanManager × Option BanException :=
  if isLoopback address then (manager, none)
  else
    let count := manager.nextCount address
    let manager := manager.strike address
    match strikeDuration count with
    | none => (manager, some .indexOutOfRange)
    | some duration => manager.set now address duration

end IntegratedBanManager

inductive Request where
  | ban (address : String) (duration : ℤ)
  | escalateBan (address : String)
deriving DecidableEq

namespace Request

def address : Request → String
  | ban address _ => address
  | escalateBan address => address

def perform (now : ℕ) (manager : IntegratedBanManager) :
    Request → IntegratedBanManager × Option BanException
  | ban address duration => manager.ban now address duration
  | escalateBan address => manager.escalateBan now address

/-- How long a request bans its address. -/
def duration (manager : IntegratedBanManager) : Request → Option ℕ
  | ban _ duration => if 0 < duration then some duration.toNat else none
  | escalateBan address => IntegratedBanManager.strikeDuration (manager.nextCount address)

/-- The time until which a request promises that an address is banned. A request that throws
promises nothing, and none does for loopback. -/
def promise (now : ℕ) (manager : IntegratedBanManager) (request : Request) :
    Option (String × ℕ) :=
  match (request.perform now manager).2, request.duration manager with
  | none, some duration =>
      if isLoopback request.address then none else some (request.address, now + duration)
  | _, _ => none

end Request

/-- A request and the time since the one before it. -/
structure Call where
  wait : ℕ
  request : Request
deriving DecidableEq

/-- A ban manager in time. -/
structure Timeline where
  clock : ℕ
  manager : IntegratedBanManager

namespace Timeline

def start (clock : ℕ) : Timeline where
  clock := clock
  manager := .initial

def step (timeline : Timeline) (call : Call) : Timeline :=
  let now := timeline.clock + call.wait
  { clock := now
    manager := (call.request.perform now timeline.manager).1 }

end Timeline

section entries

namespace IntegratedBanManager

variable (manager : IntegratedBanManager) (now : ℕ) (address : String)

theorem set_of_le {duration : ℕ} (h : now + duration ≤ maxDateTime) :
    manager.set now address duration =
      ({ manager with cache := manager.cache.set address (now + duration) }, none) := by
  rw [set, if_pos h]

theorem set_of_lt {duration : ℕ} (h : maxDateTime < now + duration) :
    manager.set now address duration = (manager, some .argumentOutOfRange) := by
  rw [set, if_neg (Nat.not_le.mpr h)]

end IntegratedBanManager

namespace Request

variable {now : ℕ} {manager : IntegratedBanManager} {request : Request}

theorem perform_of_loopback (h : isLoopback request.address = true) :
    (request.perform now manager).1 = manager := by
  cases request with
  | ban address duration =>
      rw [perform, IntegratedBanManager.ban]
      split
      · rfl
      · exact congrArg Prod.fst (if_pos h)
  | escalateBan address => exact congrArg Prod.fst (if_pos h)

theorem perform_escalateBan {address : String}
    (h : ¬ isLoopback (escalateBan address).address = true) :
    perform now manager (.escalateBan address) =
      match IntegratedBanManager.strikeDuration (manager.nextCount address) with
      | none => (manager.strike address, some .indexOutOfRange)
      | some duration => (manager.strike address).set now address duration :=
  if_neg h

/-- A request without a duration throws and sets nothing. -/
theorem perform_of_duration_none (hloopback : ¬ isLoopback request.address = true)
    (h : request.duration manager = none) :
    (request.perform now manager).1.cache = manager.cache ∧
      (request.perform now manager).2 ≠ none := by
  cases request with
  | ban address duration =>
      rw [Request.duration] at h
      split at h
      · cases h
      · rename_i hduration
        rw [perform, IntegratedBanManager.ban, if_pos (not_lt.mp hduration)]
        exact ⟨rfl, by simp⟩
  | escalateBan address =>
      have hstrike : IntegratedBanManager.strikeDuration (manager.nextCount address) = none := h
      rw [perform_escalateBan hloopback, hstrike]
      exact ⟨rfl, by simp⟩

/-- A request with a duration sets the entry of its address. -/
theorem perform_of_duration_some (now : ℕ) (hloopback : ¬ isLoopback request.address = true)
    {duration : ℕ} (h : request.duration manager = some duration) :
    ∃ changed : IntegratedBanManager, changed.cache = manager.cache ∧
      request.perform now manager = changed.set now request.address duration := by
  cases request with
  | ban address requested =>
      rw [Request.duration] at h
      split at h
      · rename_i hduration
        cases h
        refine ⟨manager, rfl, ?_⟩
        rw [perform, IntegratedBanManager.ban, if_neg (not_le.mpr hduration)]
        exact if_neg hloopback
      · cases h
  | escalateBan address =>
      have hstrike : IntegratedBanManager.strikeDuration (manager.nextCount address) =
          some duration := h
      refine ⟨manager.strike address, rfl, ?_⟩
      rw [perform_escalateBan hloopback, hstrike]
      rfl

theorem promise_of_loopback (h : isLoopback request.address = true) :
    request.promise now manager = none := by
  rw [promise]
  split
  · rw [if_pos h]
  · rfl

theorem promise_of_duration_none (h : request.duration manager = none) :
    request.promise now manager = none := by
  rw [promise, h]
  cases (request.perform now manager).2 <;> rfl

/-- A request with a duration promises it unless the ban would end after the last date. -/
theorem promise_of_duration_some (hloopback : ¬ isLoopback request.address = true)
    {duration : ℕ} (h : request.duration manager = some duration) :
    request.promise now manager =
      if now + duration ≤ maxDateTime then some (request.address, now + duration) else none := by
  obtain ⟨changed, -, hperform⟩ := perform_of_duration_some now hloopback h
  rw [promise, hperform, h]
  by_cases hdate : now + duration ≤ maxDateTime
  · rw [changed.set_of_le now request.address hdate, if_pos hdate]
    exact if_neg hloopback
  · rw [changed.set_of_lt now request.address (not_le.mp hdate), if_neg hdate]

theorem promise_eq_some {address : String} {ending : ℕ}
    (h : request.promise now manager = some (address, ending)) :
    isLoopback address = false ∧ address = request.address ∧ ending ≤ maxDateTime ∧
      ∃ duration, request.duration manager = some duration ∧ ending = now + duration := by
  by_cases hloopback : isLoopback request.address = true
  · rw [promise_of_loopback hloopback] at h
    cases h
  · cases hduration : request.duration manager with
    | none =>
        rw [promise_of_duration_none hduration] at h
        cases h
    | some duration =>
        rw [promise_of_duration_some hloopback hduration] at h
        split at h
        · rename_i hdate
          cases h
          exact ⟨Bool.eq_false_iff.mpr hloopback, rfl, hdate, duration, rfl, rfl⟩
        · cases h

variable (now manager request)

/-- What a request does to the cache is what it promises. -/
theorem cache_perform :
    (request.perform now manager).1.cache = manager.cache.write (request.promise now manager) := by
  by_cases hloopback : isLoopback request.address = true
  · rw [promise_of_loopback hloopback, perform_of_loopback hloopback, ExpiringCache.write_none]
  · cases hduration : request.duration manager with
    | none =>
        rw [promise_of_duration_none hduration, ExpiringCache.write_none]
        exact (perform_of_duration_none hloopback hduration).1
    | some duration =>
        obtain ⟨changed, hcache, hperform⟩ := perform_of_duration_some now hloopback hduration
        rw [promise_of_duration_some hloopback hduration, hperform]
        split_ifs with hdate
        · rw [changed.set_of_le now request.address hdate, ExpiringCache.write_some, hcache]
        · rw [changed.set_of_lt now request.address (not_le.mp hdate), ExpiringCache.write_none,
            hcache]

end Request

/-- Every ban of the table lasts. -/
theorem pos_of_mem_escalation {duration : ℕ} (h : duration ∈ escalation) : 0 < duration := by
  revert duration
  decide

theorem mem_escalation_of_strikeDuration {count : Int32} {duration : ℕ}
    (h : IntegratedBanManager.strikeDuration count = some duration) : duration ∈ escalation := by
  rw [IntegratedBanManager.strikeDuration] at h
  split at h
  · cases h
  · exact List.mem_of_getElem? h

theorem Request.lt_of_promise {now : ℕ} {manager : IntegratedBanManager} {request : Request}
    {address : String} {ending : ℕ} (h : request.promise now manager = some (address, ending)) :
    now < ending := by
  obtain ⟨-, -, -, duration, hduration, rfl⟩ := Request.promise_eq_some h
  have hpositive : 0 < duration := by
    cases request with
    | ban address requested =>
        rw [Request.duration] at hduration
        split at hduration
        · cases hduration
          omega
        · cases hduration
    | escalateBan address =>
        exact pos_of_mem_escalation (mem_escalation_of_strikeDuration hduration)
  omega

end entries

/-- The manager sets entries of its cache while time passes. -/
def bans : CachingSystem Timeline Call String ℕ where
  step := Timeline.step
  clock := Timeline.clock
  cache timeline := timeline.manager.cache
  entry timeline call := call.request.promise (timeline.clock + call.wait) timeline.manager
  clock_le timeline call := Nat.le_add_right timeline.clock call.wait
  cache_step timeline call := call.request.cache_perform _ timeline.manager
  clock_lt _ _ _ _ h := Request.lt_of_promise h

end Miningcore.Banning
