import Mathlib.Algebra.Order.Ring.Nat
import Mathlib.Data.List.Chain
import Miningcore.Banning.IntegratedBanManager
import Miningcore.Foundation.SpacedTimes

/-!
# The throttle of connections

A connection counts in the window of its address, which starts with the first
connection after the end of the window before. So five connections at the end of a
window and five at the start of the next one are all accepted, although the limit
is meant for every second.

## Implementation notes

A counter is a signed number of 32 bits. A window cannot start in the last second
of the dates; a connection then throws and is not accepted.
-/

namespace Miningcore.Banning

open Foundation

structure ThrottleWindow where
  count : Int32
  resetAt : ℕ
deriving DecidableEq

/-- `throttles` -/
abbrev Throttles := String → Option ThrottleWindow

/-- A window from now on. -/
def newWindow (now : ℕ) : Option ThrottleWindow :=
  if now + ticksPerSecond ≤ maxDateTime then some ⟨1, now + ticksPerSecond⟩ else none

/-- The window of an address with one connection more, if its end is a date. -/
def addOrUpdate (now : ℕ) : Option ThrottleWindow → Option ThrottleWindow
  | none => newWindow now
  | some w => if w.resetAt < now then newWindow now else some ⟨w.count + 1, w.resetAt⟩

def throttleConnect (now : ℕ) (throttles : Throttles) (address : String) :
    Throttles × Except BanException Bool :=
  if isLoopback address then (throttles, .ok true)
  else
    match addOrUpdate now (throttles address) with
    | none => (throttles, .error .argumentOutOfRange)
    | some window =>
        (fun other => if other = address then some window else throttles other,
          .ok (window.count ≤ 5))

/-- A connection, from an address if its remote end is known. -/
structure Attempt where
  remoteEndpoint : Option String
  time : ℕ
deriving DecidableEq

/-- One turn of the accept loop, and if the connection is accepted. -/
def listen (throttles : Throttles) (attempt : Attempt) : Throttles × Bool :=
  match attempt.remoteEndpoint with
  | none => (throttles, true)
  | some address =>
      match throttleConnect attempt.time throttles address with
      | (throttles, .ok allowed) => (throttles, allowed)
      | (throttles, .error _) => (throttles, false)

/-- The connections that are accepted. -/
def accepted (throttles : Throttles) : List Attempt → List Attempt
  | [] => []
  | attempt :: attempts =>
      let (throttles, allowed) := listen throttles attempt
      if allowed then attempt :: accepted throttles attempts else accepted throttles attempts

/-- How many connections in a second are documented, for an address that is not exempt. -/
def documentedLimit (address : String) : Option ℕ := if isLoopback address then none else some 5

/-- The times of the connections of an address. -/
def timesOf (address : String) (attempts : List Attempt) : List ℕ :=
  attempts.filterMap fun attempt =>
    if attempt.remoteEndpoint = some address then some attempt.time else none

/-- In no second more connections of an address are accepted than documented. -/
def IsThrottled (address : String) (attempts : List Attempt) : Prop :=
  ∀ limit ∈ documentedLimit address,
    WithinLimit limit ticksPerSecond (timesOf address (accepted (fun _ => none) attempts))

/-- The connections of an address by windows of a second. -/
def windowsOf (address : String) (attempts : List Attempt) : List (List ℕ) :=
  windows (fun time => decide (time + ticksPerSecond ≤ maxDateTime)) ticksPerSecond
    (timesOf address attempts)

section windows

/-- The times that are accepted in a window, by the count before. -/
def counted (count : Int32) : List ℕ → List ℕ
  | [] => []
  | time :: times =>
      if count + 1 ≤ 5 then time :: counted (count + 1) times else counted (count + 1) times

/-- What is accepted of the connections of one address. -/
def acceptedFrom (window : Option ThrottleWindow) : List ℕ → List ℕ
  | [] => []
  | time :: times =>
      match addOrUpdate time window with
      | none => acceptedFrom window times
      | some window =>
          if window.count ≤ 5 then time :: acceptedFrom (some window) times
          else acceptedFrom (some window) times

variable {address : String}

theorem timesOf_cons (attempt : Attempt) (attempts : List Attempt) :
    timesOf address (attempt :: attempts) =
      if attempt.remoteEndpoint = some address then attempt.time :: timesOf address attempts
      else timesOf address attempts := by
  rw [timesOf, List.filterMap_cons]
  split_ifs <;> rfl

theorem listen_some (throttles : Throttles) (other : String) (time : ℕ) :
    listen throttles ⟨some other, time⟩ =
      match throttleConnect time throttles other with
      | (throttles, .ok allowed) => (throttles, allowed)
      | (throttles, .error _) => (throttles, false) :=
  rfl

/-- A connection does not touch the windows of other addresses. -/
theorem listen_of_ne {attempt : Attempt} (h : attempt.remoteEndpoint ≠ some address)
    (throttles : Throttles) : (listen throttles attempt).1 address = throttles address := by
  obtain ⟨remoteEndpoint, time⟩ := attempt
  cases remoteEndpoint with
  | none => rfl
  | some other =>
      have hne : address ≠ other := fun heq => h (congrArg some heq.symm)
      rw [listen_some, throttleConnect]
      split_ifs with hloopback
      · rfl
      · cases addOrUpdate time (throttles other) with
        | none => rfl
        | some window => exact if_neg hne

theorem listen_self (h : isLoopback address = false) (time : ℕ) (throttles : Throttles) :
    listen throttles ⟨some address, time⟩ =
      match addOrUpdate time (throttles address) with
      | none => (throttles, false)
      | some window =>
          (fun other => if other = address then some window else throttles other,
            decide (window.count ≤ 5)) := by
  rw [listen_some, throttleConnect, h]
  cases addOrUpdate time (throttles address) <;> rfl

/-- The addresses do not depend on each other. -/
theorem timesOf_accepted (h : isLoopback address = false) (throttles : Throttles)
    (attempts : List Attempt) :
    timesOf address (accepted throttles attempts) =
      acceptedFrom (throttles address) (timesOf address attempts) := by
  induction attempts generalizing throttles with
  | nil => rfl
  | cons attempt attempts ih =>
      rw [accepted, timesOf_cons]
      by_cases haddress : attempt.remoteEndpoint = some address
      · obtain ⟨remoteEndpoint, time⟩ := attempt
        obtain rfl : remoteEndpoint = some address := haddress
        rw [if_pos rfl, acceptedFrom, listen_self h]
        cases addOrUpdate time (throttles address) with
        | none => exact ih throttles
        | some window =>
            dsimp only
            rw [apply_ite (timesOf address), timesOf_cons, if_pos rfl, ih, if_pos rfl]
            simp only [decide_eq_true_eq]
      · dsimp only
        rw [if_neg haddress, apply_ite (timesOf address), timesOf_cons, if_neg haddress, ite_self,
          ih, listen_of_ne haddress]

/-- In a window that has not ended, connections are accepted by their count. -/
theorem acceptedFrom_append (count : Int32) {resetAt : ℕ} {times : List ℕ}
    (h : ∀ time ∈ times, time ≤ resetAt) (rest : List ℕ) :
    ∃ count', acceptedFrom (some ⟨count, resetAt⟩) (times ++ rest) =
      counted count times ++ acceptedFrom (some ⟨count', resetAt⟩) rest := by
  induction times generalizing count with
  | nil => exact ⟨count, rfl⟩
  | cons time times ih =>
      obtain ⟨htime, htimes⟩ := List.forall_mem_cons.mp h
      obtain ⟨count', hrest⟩ := ih (count + 1) htimes
      refine ⟨count', ?_⟩
      have hsame : addOrUpdate time (some ⟨count, resetAt⟩) = some ⟨count + 1, resetAt⟩ :=
        if_neg (Nat.not_lt.mpr htime)
      rw [List.cons_append, acceptedFrom, hsame, counted]
      dsimp only
      split_ifs
      · rw [hrest, List.cons_append]
      · exact hrest

/-- After the end of a window the next one starts. -/
theorem addOrUpdate_of_ended {time : ℕ} {window : Option ThrottleWindow}
    (h : ∀ w ∈ window, w.resetAt < time) : addOrUpdate time window = newWindow time := by
  cases window with
  | none => rfl
  | some w => exact if_pos (h w rfl)

/-- What is accepted is what counts in each window. -/
theorem acceptedFrom_eq {times : List ℕ} (h : times.Pairwise (· ≤ ·))
    {window : Option ThrottleWindow} (hended : ∀ w ∈ window, ∀ time ∈ times, w.resetAt < time) :
    acceptedFrom window times =
      (windows (fun time => decide (time + ticksPerSecond ≤ maxDateTime)) ticksPerSecond
        times).flatMap (counted 0) := by
  induction times using windows.induct
    (fun time => decide (time + ticksPerSecond ≤ maxDateTime)) ticksPerSecond
    generalizing window with
  | case1 =>
      rw [windows]
      rfl
  | case2 time times hopens ih =>
      obtain ⟨-, htimes⟩ := List.pairwise_cons.mp h
      have hnew := addOrUpdate_of_ended fun w hw => hended w hw time List.mem_cons_self
      rw [newWindow, if_pos (of_decide_eq_true hopens)] at hnew
      obtain ⟨count, hrest⟩ := acceptedFrom_append 1
        (fun other hother => le_of_mem_takeWhile hother)
        (times.dropWhile (· ≤ time + ticksPerSecond))
      rw [List.takeWhile_append_dropWhile] at hrest
      have hafter : ∀ w ∈ some (⟨count, time + ticksPerSecond⟩ : ThrottleWindow),
          ∀ other ∈ times.dropWhile (· ≤ time + ticksPerSecond), w.resetAt < other :=
        fun w hw other hother => Option.some.inj hw ▸ lt_of_mem_dropWhile htimes hother
      rw [windows, if_pos hopens, acceptedFrom, hnew, List.flatMap_cons,
        ← ih (htimes.sublist (List.dropWhile_sublist _)) hafter]
      exact congrArg (time :: ·) hrest
  | case3 time times hopens ih =>
      have hnew := addOrUpdate_of_ended fun w hw => hended w hw time List.mem_cons_self
      rw [newWindow, if_neg fun hdate => hopens (decide_eq_true hdate)] at hnew
      rw [windows, if_neg hopens, acceptedFrom, hnew]
      exact ih (List.pairwise_cons.mp h).2
        fun w hw other hother => hended w hw other (List.mem_cons_of_mem _ hother)

theorem counted_append (before : ℕ) (times times' : List ℕ) :
    counted (Int32.ofNat before) (times ++ times') =
      counted (Int32.ofNat before) times ++
        counted (Int32.ofNat (before + times.length)) times' := by
  induction times generalizing before with
  | nil => rfl
  | cons time times ih =>
      have hplace : before + (time :: times).length = before + 1 + times.length := by
        rw [List.length_cons]
        omega
      have hnext : Int32.ofNat before + 1 = Int32.ofNat (before + 1) := (Int32.ofNat_add _ _).symm
      rw [List.cons_append, counted, counted, hnext, ih, hplace]
      split_ifs <;> rfl

/-- As long as the count does not overflow, the first ones are counted. -/
theorem counted_eq_take {before : ℕ} {times : List ℕ} (h : before + times.length < 2 ^ 31) :
    counted (Int32.ofNat before) times = times.take (5 - before) := by
  induction times generalizing before with
  | nil => exact List.take_nil.symm
  | cons time times ih =>
      rw [List.length_cons] at h
      have hnext : Int32.ofNat before + 1 = Int32.ofNat (before + 1) := (Int32.ofNat_add _ _).symm
      have hle : Int32.ofNat (before + 1) ≤ 5 ↔ before + 1 ≤ 5 := by
        rw [Int32.le_iff_toInt_le, Int32.toInt_ofNat_of_lt (by omega)]
        exact Int.ofNat_le
      rw [counted, hnext, ih (by omega)]
      split_ifs with hfew
      · rw [hle] at hfew
        rw [show 5 - before = 5 - (before + 1) + 1 by omega, List.take_succ_cons]
      · rw [hle] at hfew
        rw [show 5 - before = 0 by omega, show 5 - (before + 1) = 0 by omega]
        rfl

/-- A count that overflows accepts a sixth one. -/
theorem lt_length_counted {times : List ℕ} (h : 2 ^ 31 ≤ times.length) :
    5 < (counted 0 times).length := by
  have hsplit := counted_append 0 (times.take (2 ^ 31 - 1)) (times.drop (2 ^ 31 - 1))
  have hfirst : (times.take (2 ^ 31 - 1)).length = 2 ^ 31 - 1 := by
    rw [List.length_take]
    omega
  obtain ⟨time, rest, hrest⟩ := List.exists_cons_of_length_pos
    (show 0 < (times.drop (2 ^ 31 - 1)).length by rw [List.length_drop]; omega)
  have hfive := counted_eq_take
    (show 0 + (times.take (2 ^ 31 - 1)).length < 2 ^ 31 by rw [hfirst]; decide)
  have hwrapped : Int32.ofNat (0 + (2 ^ 31 - 1)) + 1 ≤ 5 := by decide
  rw [List.take_append_drop, hfive, hfirst, hrest, counted, if_pos hwrapped] at hsplit
  have hlength := congrArg List.length hsplit
  rw [List.length_append, List.length_take, hfirst, List.length_cons] at hlength
  have hcounted : (counted (Int32.ofNat 0) times).length = (counted 0 times).length := rfl
  omega

/-- What counts in a window is part of it. -/
theorem counted_sublist (count : Int32) (times : List ℕ) : (counted count times).Sublist times := by
  induction times generalizing count with
  | nil => exact List.Sublist.refl _
  | cons time times ih =>
      rw [counted]
      split_ifs
      · exact (ih _).cons_cons time
      · exact (ih _).cons time

end windows

section limits

variable {address : String} {attempts : List Attempt}

theorem pairwise_timesOf (address : String)
    (h : attempts.Pairwise fun earlier later => earlier.time ≤ later.time) :
    (timesOf address attempts).Pairwise (· ≤ ·) := by
  apply List.Pairwise.filterMap _ _ h
  intro earlier later hle time htime time' htime'
  rw [Option.ite_none_right_eq_some] at htime htime'
  rwa [← Option.some.inj htime.2, ← Option.some.inj htime'.2]

theorem acceptedFrom_sublist (window : Option ThrottleWindow) (times : List ℕ) :
    (acceptedFrom window times).Sublist times := by
  induction times generalizing window with
  | nil => exact List.Sublist.refl _
  | cons time times ih =>
      rw [acceptedFrom]
      split
      · exact (ih _).cons time
      · split_ifs
        · exact (ih _).cons_cons time
        · exact (ih _).cons time

theorem timesOf_accepted_eq (h : isLoopback address = false)
    (hsorted : (timesOf address attempts).Pairwise (· ≤ ·)) :
    timesOf address (accepted (fun _ => none) attempts) =
      (windowsOf address attempts).flatMap (counted 0) := by
  rw [timesOf_accepted h, acceptedFrom_eq hsorted fun w hw => absurd hw (Option.not_mem_none w)]
  rfl

/-- More than five are accepted in a window that overflows. -/
theorem length_lt_of_withinLimit {groups : List (List ℕ)} (h : Windowed ticksPerSecond groups)
    (hwithin : WithinLimit 5 ticksPerSecond (groups.flatMap (counted 0))) {window : List ℕ}
    (hwindow : window ∈ groups) : window.length < 2 ^ 31 := by
  by_contra hlong
  obtain ⟨start, hstart⟩ := h.exists_start hwindow
  have hall : ∀ time ∈ counted 0 window,
      decide (start ≤ time ∧ time ≤ start + ticksPerSecond) = true :=
    fun time htime => decide_eq_true (hstart time ((counted_sublist 0 window).mem htime))
  have hmany := lt_length_counted (not_lt.mp hlong)
  rw [← List.countP_eq_length.mpr hall] at hmany
  have hpart := List.sublist_flatten_of_mem (List.mem_map_of_mem (f := counted 0) hwindow)
  exact absurd (hwithin start) (not_le.mpr (hmany.trans_le hpart.countP_le))

/-- An address is throttled as documented exactly if none of its windows overflows and successive
windows are apart. -/
theorem isThrottled_iff (address : String)
    (h : attempts.Pairwise fun earlier later => earlier.time ≤ later.time) :
    IsThrottled address attempts ↔ isLoopback address = true ∨
      (∀ window ∈ windowsOf address attempts, window.length < 2 ^ 31) ∧
        (windowsOf address attempts).IsChain (Apart 5 ticksPerSecond) := by
  have hsorted := pairwise_timesOf address h
  rw [IsThrottled, documentedLimit]
  cases hloopback : isLoopback address with
  | true => simp
  | false =>
      have hwindowed : Windowed ticksPerSecond (windowsOf address attempts) :=
        windowed_windows (Nat.zero_le _) hsorted
      have haccepted : (timesOf address (accepted (fun _ => none) attempts)).Pairwise (· ≤ ·) := by
        rw [timesOf_accepted hloopback]
        exact hsorted.sublist (acceptedFrom_sublist _ _)
      have hfirst (hshort : ∀ window ∈ windowsOf address attempts, window.length < 2 ^ 31) :
          timesOf address (accepted (fun _ => none) attempts) =
            (windowsOf address attempts).flatMap (List.take 5) := by
        rw [timesOf_accepted_eq hloopback hsorted]
        apply List.flatMap_congr
        intro window hwindow
        exact counted_eq_take ((Nat.zero_add _).trans_lt (hshort window hwindow))
      simp only [Bool.false_eq_true, false_or, if_false, Option.mem_some_iff, forall_eq']
      constructor
      · intro hwithin
        have hshort : ∀ window ∈ windowsOf address attempts, window.length < 2 ^ 31 := by
          intro window hwindow
          apply length_lt_of_withinLimit hwindowed _ hwindow
          rwa [← timesOf_accepted_eq hloopback hsorted]
        refine ⟨hshort, ?_⟩
        rw [withinLimit_iff_lagging haccepted, hfirst hshort,
          lagging_flatMap_iff hwindowed] at hwithin
        exact hwithin
      · rintro ⟨hshort, hchain⟩
        rw [withinLimit_iff_lagging haccepted, hfirst hshort, lagging_flatMap_iff hwindowed]
        exact hchain

end limits

/-- Of connections at the same time only five are accepted. -/
theorem isThrottled_atOnce :
    IsThrottled "203.0.113.7" (List.replicate 6 ⟨some "203.0.113.7", 0⟩) := by
  apply (isThrottled_iff "203.0.113.7" (by decide)).mpr
  have hwindows : windowsOf "203.0.113.7" (List.replicate 6 ⟨some "203.0.113.7", 0⟩) =
      [List.replicate 6 0] := by
    simp [windowsOf, timesOf, windows, ticksPerSecond, maxDateTime]
  rw [hwindows]
  refine .inr ⟨fun window hwindow => ?_, List.isChain_singleton _⟩
  rw [List.mem_singleton.mp hwindow]
  decide

/-- One connection starts a window, four come at its end and five right after it. -/
def straddling : List Attempt :=
  ⟨some "203.0.113.7", 0⟩ ::
    (List.replicate 4 ⟨some "203.0.113.7", ticksPerSecond⟩ ++
      List.replicate 5 ⟨some "203.0.113.7", ticksPerSecond + 1⟩)

/-- Nine of them are accepted within a second. -/
theorem not_isThrottled_straddling : ¬IsThrottled "203.0.113.7" straddling := by
  intro h
  exact absurd (h 5 (by decide) ticksPerSecond) (by decide)

end Miningcore.Banning
