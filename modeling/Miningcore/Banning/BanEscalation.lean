import Miningcore.Banning.IntegratedBanManager

/-!
# The length of bans and their escalation

A request that returns promises that its address is banned for some time. Bans
of an address share one entry of the cache, so a short ban takes the place of a
longer one that is in force.
-/

namespace Miningcore.Banning

open Foundation

namespace Timeline

/-- The time until which a call promises that an address is banned. -/
def promise (timeline : Timeline) (call : Call) : Option (String × ℕ) :=
  call.request.promise (timeline.clock + call.wait) timeline.manager

def run (clock : ℕ) (calls : List Call) : Timeline :=
  calls.foldl step (start clock)

theorem run_concat (clock : ℕ) (calls : List Call) (call : Call) :
    run clock (calls ++ [call]) = (run clock calls).step call := by
  rw [run, List.foldl_append, List.foldl_cons, List.foldl_nil, run]

theorem clock_run_le_append (clock : ℕ) (calls later : List Call) :
    (run clock calls).clock ≤ (run clock (calls ++ later)).clock :=
  CachingSystem.clock_run_le_append bans (start clock) calls later

end Timeline

/-- Every promised ban holds in every later state, until the promised time. -/
def KeepsBans (clock : ℕ) (calls : List Call) : Prop :=
  ∀ earlier call later, earlier ++ call :: later <+: calls →
    ∀ address ending, (Timeline.run clock earlier).promise call = some (address, ending) →
      ∀ time, (Timeline.run clock (earlier ++ call :: later)).clock ≤ time → time < ending →
        (Timeline.run clock (earlier ++ call :: later)).manager.IsBanned time address

/-- No call bans an address to an earlier time than the ban in force does. -/
def NeverShortensBan (clock : ℕ) (calls : List Call) : Prop :=
  ∀ earlier call, earlier ++ [call] <+: calls →
    ∀ address ending, (Timeline.run clock earlier).promise call = some (address, ending) →
      ∀ old ∈ (Timeline.run clock earlier).manager.cache.ending address,
        (Timeline.run clock earlier).clock + call.wait < old → old ≤ ending

/-- The ban in force was promised by some call. -/
theorem exists_promise_of_ending {clock : ℕ} {calls : List Call} {address : String} {ending : ℕ}
    (h : (Timeline.run clock calls).manager.cache.ending address = some ending) :
    ∃ earlier call later, calls = earlier ++ call :: later ∧
      (Timeline.run clock earlier).promise call = some (address, ending) := by
  have hempty : bans.cache (Timeline.start clock) = ExpiringCache.empty := rfl
  have hending : (bans.cache (bans.run (Timeline.start clock) calls)).ending address =
      some ending := h
  exact CachingSystem.exists_entry_of_ending hempty hending

section shortening

variable {clock : ℕ} {calls : List Call}

/-- The manager is a system that sets entries of a cache. -/
theorem neverShortens_bans_iff :
    bans.NeverShortens (Timeline.start clock) calls ↔ NeverShortensBan clock calls := by
  refine forall_congr' fun earlier => forall_congr' fun call => ?_
  rw [CachingSystem.run_concat]
  rfl

theorem keepsBans_of_neverShortensBan (h : NeverShortensBan clock calls) :
    KeepsBans clock calls := by
  have hempty : bans.cache (Timeline.start clock) = ExpiringCache.empty := rfl
  exact (CachingSystem.keepsEntries_iff_neverShortens hempty calls).mpr
    (neverShortens_bans_iff.mpr h)

/-- A shorter ban breaks the promise of the one in force. -/
theorem neverShortensBan_of_keepsBans (h : KeepsBans clock calls) :
    NeverShortensBan clock calls := by
  have hempty : bans.cache (Timeline.start clock) = ExpiringCache.empty := rfl
  exact neverShortens_bans_iff.mp
    ((CachingSystem.keepsEntries_iff_neverShortens hempty calls).mp h)

end shortening

/-- Bans are kept exactly when no call shortens the one in force. -/
theorem keepsBans_iff_neverShortensBan (clock : ℕ) (calls : List Call) :
    KeepsBans clock calls ↔ NeverShortensBan clock calls :=
  ⟨neverShortensBan_of_keepsBans, keepsBans_of_neverShortensBan⟩

/-- A ban for ten minutes of an address with many invalid shares, and a second later the one for
ten seconds of a worker of the same address that failed to log in. -/
def loginFailureAfterInvalidShares : List Call :=
  [⟨0, .ban "203.0.113.7" (600 * ticksPerSecond)⟩,
    ⟨ticksPerSecond, .ban "203.0.113.7" (10 * ticksPerSecond)⟩]

/-- The shorter ban takes the place of the longer one. -/
theorem not_keepsBans_loginFailure :
    ¬ KeepsBans 638000000000000000 loginFailureAfterInvalidShares := by
  intro hkeeps
  have hshort := neverShortensBan_of_keepsBans hkeeps
    [⟨0, .ban "203.0.113.7" (600 * ticksPerSecond)⟩]
    ⟨ticksPerSecond, .ban "203.0.113.7" (10 * ticksPerSecond)⟩ List.prefix_rfl "203.0.113.7"
    (638000000000000000 + 11 * ticksPerSecond) (by decide +kernel)
    (638000000000000000 + 600 * ticksPerSecond) (by decide +kernel) (by decide +kernel)
  revert hshort
  decide

/-!
## Escalation

An address that strikes again is banned for longer, and for good from the seventh
strike on. The table of the code has the longest possible duration for that. It
is not a date when it is added to the time of the strike, so the seventh strike
throws and bans nothing.
-/

/-- The bans that end, by the strikes before. Any later one is permanent. -/
def documentedBans : List ℕ :=
  [10 * ticksPerSecond,
    60 * ticksPerSecond,
    5 * 60 * ticksPerSecond,
    30 * 60 * ticksPerSecond,
    2 * 3600 * ticksPerSecond,
    24 * 3600 * ticksPerSecond]

/-- A strike of an address and the time since the one before it. -/
structure Strike where
  wait : ℕ
  address : String
deriving DecidableEq

def Strike.call (strike : Strike) : Call :=
  ⟨strike.wait, .escalateBan strike.address⟩

def Timeline.afterStrikes (clock : ℕ) (strikes : List Strike) : Timeline :=
  Timeline.run clock (strikes.map Strike.call)

/-- How often an address has struck. -/
def strikesOf (address : String) (strikes : List Strike) : ℕ :=
  (strikes.map Strike.address).count address

/-- The ban that some strikes before and a time call for holds at another time. -/
def LastsUntil (before now time : ℕ) : Prop :=
  match documentedBans[before]? with
  | some duration => time < now + duration
  | none => True

/-- Every strike bans its address for as long as the documented table says. -/
def FollowsTable (clock : ℕ) (strikes : List Strike) : Prop :=
  ∀ earlier strike later, earlier ++ strike :: later <+: strikes →
    isLoopback strike.address = false →
      ∀ time, (Timeline.afterStrikes clock (earlier ++ strike :: later)).clock ≤ time →
        LastsUntil (strikesOf strike.address earlier)
            (Timeline.afterStrikes clock (earlier ++ [strike])).clock time →
          (Timeline.afterStrikes clock (earlier ++ strike :: later)).manager.IsBanned time
            strike.address

/-- No address strikes a seventh time, and every ban ends on a date. -/
def StaysInTable (clock : ℕ) (strikes : List Strike) : Prop :=
  ∀ earlier strike, earlier ++ [strike] <+: strikes → isLoopback strike.address = false →
    ∃ duration, documentedBans[strikesOf strike.address earlier]? = some duration ∧
      (Timeline.afterStrikes clock (earlier ++ [strike])).clock + duration ≤ maxDateTime

section table

variable {clock : ℕ} {strikes : List Strike}

theorem pos_of_mem_documentedBans {duration : ℕ} (h : duration ∈ documentedBans) :
    0 < duration := by
  revert duration
  decide

/-- Later bans of the table are no shorter. -/
theorem documentedBans_mono {before later first second : ℕ} (h : before ≤ later)
    (hfirst : documentedBans[before]? = some first)
    (hsecond : documentedBans[later]? = some second) : first ≤ second := by
  have hsorted : documentedBans.Pairwise (· ≤ ·) := by decide
  obtain rfl | hlt := h.eq_or_lt
  · rw [hfirst, Option.some.injEq] at hsecond
    exact hsecond.le
  · obtain ⟨hbefore, rfl⟩ := List.getElem?_eq_some_iff.mp hfirst
    obtain ⟨hlater, rfl⟩ := List.getElem?_eq_some_iff.mp hsecond
    exact List.pairwise_iff_getElem.mp hsorted before later hbefore hlater hlt

/-- No entry ends after the last date. -/
theorem ending_le_maxDateTime {calls : List Call} {address : String} {ending : ℕ}
    (h : (Timeline.run clock calls).manager.cache.ending address = some ending) :
    ending ≤ maxDateTime := by
  obtain ⟨earlier, call, later, -, hpromise⟩ := exists_promise_of_ending h
  exact (Request.promise_eq_some hpromise).2.2.1

/-- A strike that has no ban in the table, or none that ends on a date, is not banned beyond the
last date. -/
theorem staysInTable_of_followsTable (h : FollowsTable clock strikes) :
    StaysInTable clock strikes := by
  intro earlier strike hstrikes hloopback
  by_contra hout
  have hlasts : LastsUntil (strikesOf strike.address earlier)
      (Timeline.afterStrikes clock (earlier ++ [strike])).clock
      (max (Timeline.afterStrikes clock (earlier ++ [strike])).clock maxDateTime) := by
    rw [LastsUntil]
    split
    · rename_i duration hduration
      have hpositive := pos_of_mem_documentedBans (List.mem_of_getElem? hduration)
      have hbeyond := not_le.mp fun hdate => hout ⟨duration, hduration, hdate⟩
      exact max_lt (by omega) hbeyond
    · trivial
  obtain ⟨ending, hending, hlt⟩ := h earlier strike [] hstrikes hloopback _ (le_max_left _ _) hlasts
  have hle := ending_le_maxDateTime hending
  have hdate := le_max_right (Timeline.afterStrikes clock (earlier ++ [strike])).clock maxDateTime
  omega

end table

section counts

variable {clock : ℕ}

theorem afterStrikes_concat (strikes : List Strike) (strike : Strike) :
    Timeline.afterStrikes clock (strikes ++ [strike]) =
      (Timeline.afterStrikes clock strikes).step strike.call := by
  rw [Timeline.afterStrikes, List.map_append, List.map_singleton, Timeline.run_concat,
    Timeline.afterStrikes]

theorem clock_afterStrikes_le_append (clock : ℕ) (strikes later : List Strike) :
    (Timeline.afterStrikes clock strikes).clock ≤
      (Timeline.afterStrikes clock (strikes ++ later)).clock := by
  rw [Timeline.afterStrikes, Timeline.afterStrikes, List.map_append]
  exact Timeline.clock_run_le_append clock _ _

theorem strikesOf_le_append (address : String) (strikes later : List Strike) :
    strikesOf address strikes ≤ strikesOf address (strikes ++ later) := by
  rw [strikesOf, strikesOf, List.map_append, List.count_append]
  exact Nat.le_add_right _ _

theorem strikesOf_concat (address : String) (strikes : List Strike) (strike : Strike) :
    strikesOf address (strikes ++ [strike]) =
      strikesOf address strikes + if strike.address = address then 1 else 0 := by
  rw [strikesOf, List.map_append, List.count_append, List.map_singleton, List.count_singleton,
    strikesOf]
  simp only [beq_iff_eq]

theorem nextCount_set (manager : IntegratedBanManager) (now : ℕ) (key : String) (duration : ℕ)
    (address : String) :
    (manager.set now key duration).1.nextCount address = manager.nextCount address := by
  rw [IntegratedBanManager.set]
  split <;> rfl

theorem nextCount_strike (manager : IntegratedBanManager) (struck address : String) :
    (manager.strike struck).nextCount address =
      if address = struck then manager.nextCount address + 1 else manager.nextCount address := by
  by_cases haddress : address = struck
  · subst haddress
    simp [IntegratedBanManager.nextCount, IntegratedBanManager.strike]
  · simp [IntegratedBanManager.nextCount, IntegratedBanManager.strike, haddress]

/-- A ban that escalates counts for its address. -/
theorem nextCount_escalateBan (manager : IntegratedBanManager) (now : ℕ) (struck : String)
    {address : String} (h : isLoopback address = false) :
    (manager.escalateBan now struck).1.nextCount address =
      if address = struck then manager.nextCount address + 1 else manager.nextCount address := by
  rw [IntegratedBanManager.escalateBan]
  split
  · rename_i hloopback
    have hne : address ≠ struck := by
      rintro rfl
      rw [h] at hloopback
      cases hloopback
    rw [if_neg hne]
  · dsimp only
    rw [← nextCount_strike]
    split
    · rfl
    · exact nextCount_set _ _ _ _ _

/-- The manager counts the strikes of every address that is no loopback. -/
theorem nextCount_afterStrikes (strikes : List Strike) {address : String}
    (h : isLoopback address = false) :
    (Timeline.afterStrikes clock strikes).manager.nextCount address =
      Int32.ofNat (strikesOf address strikes + 1) := by
  induction strikes using List.reverseRecOn with
  | nil => rfl
  | append_singleton strikes strike ih =>
      have hstep := nextCount_escalateBan (Timeline.afterStrikes clock strikes).manager
        ((Timeline.afterStrikes clock strikes).clock + strike.wait) strike.address h
      rw [ih] at hstep
      rw [afterStrikes_concat, strikesOf_concat]
      refine hstep.trans ?_
      by_cases haddress : address = strike.address
      · rw [if_pos haddress, if_pos haddress.symm]
        exact (Int32.ofNat_add _ 1).symm
      · rw [if_neg haddress, if_neg (Ne.symm haddress), Nat.add_zero]

end counts

section promises

variable {clock : ℕ} {strikes : List Strike}

/-- The code's table begins with the documented bans. -/
theorem strikeDuration_eq_some {before duration : ℕ}
    (h : documentedBans[before]? = some duration) :
    IntegratedBanManager.strikeDuration (Int32.ofNat (before + 1)) = some duration := by
  have htable : ∀ strike : Fin 6, IntegratedBanManager.strikeDuration
      (Int32.ofNat (strike + 1)) = documentedBans[(strike : ℕ)]? := by decide
  obtain ⟨hbefore, -⟩ := List.getElem?_eq_some_iff.mp h
  exact (htable ⟨before, hbefore⟩).trans h

/-- A strike within the table promises the ban of the table. -/
theorem promise_strike {earlier : List Strike} {strike : Strike} {duration : ℕ}
    (hloopback : isLoopback strike.address = false)
    (hduration : documentedBans[strikesOf strike.address earlier]? = some duration)
    (hdate : (Timeline.afterStrikes clock (earlier ++ [strike])).clock + duration ≤ maxDateTime) :
    (Timeline.afterStrikes clock earlier).promise strike.call =
      some (strike.address,
        (Timeline.afterStrikes clock (earlier ++ [strike])).clock + duration) := by
  have hrequest : Request.duration (Timeline.afterStrikes clock earlier).manager
      (.escalateBan strike.address) = some duration := by
    rw [Request.duration, nextCount_afterStrikes earlier hloopback]
    exact strikeDuration_eq_some hduration
  have hno : ¬ isLoopback (Request.escalateBan strike.address).address = true := by
    rw [Request.address, hloopback]
    decide
  rw [afterStrikes_concat] at hdate ⊢
  rw [Timeline.promise, Strike.call, Request.promise_of_duration_some hno hrequest]
  exact if_pos hdate

/-- The promise of a strike within the table, whatever it is. -/
theorem StaysInTable.promise_eq (h : StaysInTable clock strikes) {earlier : List Strike}
    {strike : Strike} (hstrikes : earlier ++ [strike] <+: strikes) {address : String} {ending : ℕ}
    (hpromise : (Timeline.afterStrikes clock earlier).promise strike.call =
      some (address, ending)) :
    address = strike.address ∧
      ∃ duration, documentedBans[strikesOf address earlier]? = some duration ∧
        ending = (Timeline.afterStrikes clock (earlier ++ [strike])).clock + duration := by
  obtain ⟨hloopback, haddress, -⟩ := Request.promise_eq_some hpromise
  obtain rfl : address = strike.address := haddress
  obtain ⟨duration, hduration, hdate⟩ := h earlier strike hstrikes hloopback
  rw [promise_strike hloopback hduration hdate] at hpromise
  simp only [Option.some.injEq, Prod.mk.injEq, true_and] at hpromise
  exact ⟨rfl, duration, hduration, hpromise.symm⟩

theorem prefix_of_prefix_cons {α : Type*} {earlier later all : List α} {a : α}
    (h : earlier ++ a :: later <+: all) : earlier ++ [a] <+: all := by
  rw [List.append_cons] at h
  exact (List.prefix_append _ _).trans h

/-- Strikes within the table never shorten a ban. -/
theorem neverShortensBan_of_staysInTable (h : StaysInTable clock strikes) :
    NeverShortensBan clock (strikes.map Strike.call) := by
  intro earlier call hcalls address ending hpromise old hold hforce
  obtain ⟨all, hall, hmap⟩ := List.prefix_map_iff.mp hcalls
  obtain ⟨before, last, rfl, rfl, hlast⟩ := List.map_eq_append_iff.mp hmap.symm
  obtain ⟨strike, rfl, rfl⟩ := List.map_eq_singleton_iff.mp hlast
  obtain ⟨-, duration, hduration, rfl⟩ := h.promise_eq hall hpromise
  obtain ⟨first, call, later, hsplit, hformer⟩ := exists_promise_of_ending hold
  obtain ⟨first, rest, rfl, rfl, hrest⟩ := List.map_eq_append_iff.mp hsplit
  obtain ⟨older, later, rfl, rfl, rfl⟩ := List.map_eq_cons_iff.mp hrest
  have hearlier := prefix_of_prefix_cons ((List.prefix_append _ [strike]).trans hall)
  obtain ⟨-, former, hbefore, rfl⟩ := h.promise_eq hearlier hformer
  have hclock := clock_afterStrikes_le_append clock (first ++ [older]) (later ++ [strike])
  have hcount := strikesOf_le_append address first (older :: later)
  have hlonger := documentedBans_mono hcount hbefore hduration
  have hsame : first ++ [older] ++ (later ++ [strike]) = first ++ older :: later ++ [strike] := by
    simp
  rw [hsame] at hclock
  omega

/-- Strikes within the table are banned as documented. -/
theorem followsTable_of_staysInTable (h : StaysInTable clock strikes) :
    FollowsTable clock strikes := by
  intro earlier strike later hstrikes hloopback time hclock hlasts
  obtain ⟨duration, hduration, hdate⟩ := h earlier strike (prefix_of_prefix_cons hstrikes) hloopback
  have hpromise := promise_strike hloopback hduration hdate
  rw [LastsUntil, hduration] at hlasts
  have hkeeps := keepsBans_of_neverShortensBan (neverShortensBan_of_staysInTable h)
  have hcalls := hstrikes.map Strike.call
  rw [List.map_append, List.map_cons] at hcalls
  rw [Timeline.afterStrikes, List.map_append, List.map_cons] at hclock ⊢
  exact hkeeps _ _ _ hcalls _ _ hpromise time hclock hlasts

end promises

/-- The documented table is followed exactly when no address strikes a seventh time and every ban
ends on a date. -/
theorem followsTable_iff_staysInTable (clock : ℕ) (strikes : List Strike) :
    FollowsTable clock strikes ↔ StaysInTable clock strikes :=
  ⟨staysInTable_of_followsTable, followsTable_of_staysInTable⟩

/-- Seven strikes of one address, a minute apart. -/
def sevenStrikes : List Strike :=
  List.replicate 7 ⟨60 * ticksPerSecond, "203.0.113.7"⟩

/-- The seventh strike bans nothing for good. -/
theorem not_followsTable_sevenStrikes :
    ¬ FollowsTable 638000000000000000 sevenStrikes := by
  intro hfollows
  obtain ⟨duration, hduration, -⟩ := staysInTable_of_followsTable hfollows
    (List.replicate 6 ⟨60 * ticksPerSecond, "203.0.113.7"⟩)
    ⟨60 * ticksPerSecond, "203.0.113.7"⟩ List.prefix_rfl rfl
  cases hduration

end Miningcore.Banning
