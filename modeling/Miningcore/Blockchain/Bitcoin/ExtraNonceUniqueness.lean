import Mathlib.Data.List.Induction
import Miningcore.Blockchain.Bitcoin.BitcoinPool

/-!
# One extranonce for each connection

The work of two connections differs in their extranonces. Two things give the
extranonce of a live connection to another one: a session is resumed while the
connection that has its extranonce lives, and the counter of the provider comes
back to a value that is still in use.
-/

namespace Miningcore.Bitcoin

open Foundation Blockchain

/-- The connection is live, subscribed, and has the extranonce. -/
def BitcoinPool.Holds (pool : BitcoinPool) (connectionId : String) (extraNonce1 : List Char) :
    Prop :=
  ∃ subscriber, pool.connections connectionId = some subscriber ∧
    subscriber.isSubscribed = true ∧ subscriber.extraNonce1 = some extraNonce1

/-- No two live subscribed connections have the same extranonce. -/
def BitcoinPool.Unique (pool : BitcoinPool) : Prop :=
  ∀ connectionId other extraNonce1, pool.Holds connectionId extraNonce1 →
    pool.Holds other extraNonce1 → connectionId = other

/-- At most some number of connections are live. -/
def BitcoinPool.LiveAtMost (pool : BitcoinPool) (bound : ℕ) : Prop :=
  ∃ connectionIds : List String, connectionIds.length ≤ bound ∧
    ∀ connectionId, pool.connections connectionId ≠ none → connectionId ∈ connectionIds

/-- The extranonces are unique in every state of a run. -/
def KeepsUnique (pool : BitcoinPool) (events : List PoolEvent) : Prop :=
  ∀ before, before <+: events → (pool.run before).Unique

/-- A request subscribes a live connection, or keeps it subscribed. -/
def BitcoinPool.Subscribes (pool : BitcoinPool) (connectionId : String)
    (request : SubscribeRequest) : Prop :=
  request.isValid = true ∧ ∃ subscriber, pool.connections connectionId = some subscriber ∧
    (subscriber.isSubscribed || request.responds) = true

/-- No session is resumed while another live connection has its extranonce. -/
def ResumesEndedSessions (pool : BitcoinPool) (events : List PoolEvent) : Prop :=
  ∀ before connectionId request, before ++ [.subscribe connectionId request] <+: events →
    (pool.run before).Subscribes connectionId request →
      ∀ extraNonce1 ∈ (pool.run before).cachedExtraNonce1 request,
        ∀ other, (pool.run before).Holds other extraNonce1 → other = connectionId

/-- The counter does not come back to a value that another live connection has. -/
def CountsUnused (pool : BitcoinPool) (events : List PoolEvent) : Prop :=
  ∀ before connectionId request, before ++ [.subscribe connectionId request] <+: events →
    (pool.run before).Subscribes connectionId request →
      (pool.run before).cachedExtraNonce1 request = none →
        ∀ counter ≤ nonceMax extranonceBytes, ∀ other,
          (pool.run before).Holds other
              (ExtraNonceProvider.encode extranonceBytes (pool.run before).provider.id counter) →
            ((pool.run before).provider.counter + 1) % (nonceMax extranonceBytes + 1) = counter →
              other = connectionId

section steps

variable {pool : BitcoinPool} {connectionId : String} {request : SubscribeRequest}

theorem run_concat (events : List PoolEvent) (event : PoolEvent) :
    pool.run (events ++ [event]) = (pool.run events).step event := by
  rw [BitcoinPool.run, List.foldl_append, List.foldl_cons, List.foldl_nil, BitcoinPool.run]

/-- The extranonce a subscription assigns. -/
def BitcoinPool.assigned (pool : BitcoinPool) (request : SubscribeRequest) : List Char :=
  (pool.cachedExtraNonce1 request).getD pool.provider.next.1

theorem connections_subscribe (hsubscribes : pool.Subscribes connectionId request)
    (other : String) :
    (pool.step (.subscribe connectionId request)).connections other =
      if other = connectionId then some ⟨some (pool.assigned request), true⟩
      else pool.connections other := by
  obtain ⟨hvalid, subscriber, hlive, hsubscribed⟩ := hsubscribes
  rw [BitcoinPool.step, hlive]
  dsimp only
  rw [BitcoinPool.onSubscribe, if_pos hvalid]
  dsimp only
  rw [hsubscribed]
  rfl

/-- What the connections hold after a subscription. -/
theorem holds_subscribe (hsubscribes : pool.Subscribes connectionId request) (other : String)
    (extraNonce1 : List Char) :
    (pool.step (.subscribe connectionId request)).Holds other extraNonce1 ↔
      if other = connectionId then extraNonce1 = pool.assigned request
      else pool.Holds other extraNonce1 := by
  rw [BitcoinPool.Holds, connections_subscribe hsubscribes]
  split
  · constructor
    · rintro ⟨subscriber, hsubscriber, -, hextra⟩
      cases hsubscriber
      exact (Option.some.inj hextra).symm
    · rintro rfl
      exact ⟨_, rfl, rfl, rfl⟩
  · exact Iff.rfl

theorem holds_of_holds_setConnection {subscriber : Option Subscriber} {other : String}
    {extraNonce1 : List Char}
    (hnone : ∀ context ∈ subscriber, context.isSubscribed = false)
    (h : (pool.setConnection connectionId subscriber).Holds other extraNonce1) :
    pool.Holds other extraNonce1 := by
  obtain ⟨context, hcontext, hsubscribed, hextra⟩ := h
  rw [BitcoinPool.setConnection] at hcontext
  dsimp only at hcontext
  split at hcontext
  · rw [hnone context hcontext] at hsubscribed
    cases hsubscribed
  · exact ⟨context, hcontext, hsubscribed, hextra⟩

/-- A request that subscribes no connection leaves what the subscribed ones hold. -/
theorem holds_of_holds_onSubscribe {subscriber : Subscriber}
    (hlive : pool.connections connectionId = some subscriber)
    (hsubscribes : ¬ pool.Subscribes connectionId request) {other : String}
    {extraNonce1 : List Char}
    (h : (pool.onSubscribe connectionId subscriber request).Holds other extraNonce1) :
    pool.Holds other extraNonce1 := by
  rw [BitcoinPool.onSubscribe] at h
  split at h
  · rename_i hvalid
    obtain ⟨context, hcontext, hsubscribed, hextra⟩ := h
    dsimp only at hcontext
    split at hcontext
    · cases hcontext
      exact absurd ⟨hvalid, subscriber, hlive, hsubscribed⟩ hsubscribes
    · exact ⟨context, hcontext, hsubscribed, hextra⟩
  · exact h

/-- Any other step gives no connection an extranonce it did not have. -/
theorem holds_of_holds_step {event : PoolEvent}
    (hother : ∀ connectionId request, event = .subscribe connectionId request →
      ¬ pool.Subscribes connectionId request) {other : String} {extraNonce1 : List Char}
    (h : (pool.step event).Holds other extraNonce1) : pool.Holds other extraNonce1 := by
  cases event with
  | connect connectionId =>
      rw [BitcoinPool.step] at h
      split at h
      · exact h
      · exact holds_of_holds_setConnection (by simp) h
  | subscribe connectionId request =>
      rw [BitcoinPool.step] at h
      split at h
      · rename_i subscriber hlive
        exact holds_of_holds_onSubscribe hlive (hother connectionId request rfl) h
      · exact h
  | disconnect connectionId => exact holds_of_holds_setConnection (by simp) h
  | newJob => exact h

/-- A subscription keeps the extranonces unique exactly when no other connection has the one it
assigns. -/
theorem unique_subscribe_iff (hunique : pool.Unique)
    (hsubscribes : pool.Subscribes connectionId request) :
    (pool.step (.subscribe connectionId request)).Unique ↔
      ∀ other, pool.Holds other (pool.assigned request) → other = connectionId := by
  constructor
  · intro hafter other hholds
    by_contra hne
    refine hne (hafter other connectionId (pool.assigned request) ?_ ?_)
    · rw [holds_subscribe hsubscribes, if_neg hne]
      exact hholds
    · rw [holds_subscribe hsubscribes, if_pos rfl]
  · intro hfree first second extraNonce1 hfirst hsecond
    rw [holds_subscribe hsubscribes] at hfirst hsecond
    split at hfirst
    · rename_i heq
      subst heq hfirst
      split at hsecond
      · rename_i heq
        exact heq.symm
      · exact (hfree second hsecond).symm
    · split at hsecond
      · rename_i heq
        subst heq hsecond
        exact hfree first hfirst
      · exact hunique first second extraNonce1 hfirst hsecond

theorem unique_step_of_not_subscribes {event : PoolEvent} (hunique : pool.Unique)
    (hother : ∀ connectionId request, event = .subscribe connectionId request →
      ¬ pool.Subscribes connectionId request) : (pool.step event).Unique :=
  fun first second extraNonce1 hfirst hsecond =>
    hunique first second extraNonce1 (holds_of_holds_step hother hfirst)
      (holds_of_holds_step hother hsecond)

end steps

section runs

variable {pool : BitcoinPool} {events : List PoolEvent}

theorem assigned_of_cached {request : SubscribeRequest} {extraNonce1 : List Char}
    (h : extraNonce1 ∈ pool.cachedExtraNonce1 request) : pool.assigned request = extraNonce1 := by
  rw [BitcoinPool.assigned, Option.mem_def.mp h, Option.getD_some]

theorem assigned_of_not_cached {request : SubscribeRequest}
    (h : pool.cachedExtraNonce1 request = none) :
    pool.assigned request =
      ExtraNonceProvider.encode extranonceBytes pool.provider.id
        ((pool.provider.counter + 1) % (nonceMax extranonceBytes + 1)) := by
  rw [BitcoinPool.assigned, h, Option.getD_none, ← ExtraNonceProvider.nextCounter_eq_mod]
  rfl

/-- A run that keeps the extranonces unique assigns none that another connection has. -/
theorem KeepsUnique.free (h : KeepsUnique pool events) {before : List PoolEvent}
    {connectionId : String} {request : SubscribeRequest}
    (hbefore : before ++ [.subscribe connectionId request] <+: events)
    (hsubscribes : (pool.run before).Subscribes connectionId request) :
    ∀ other, (pool.run before).Holds other ((pool.run before).assigned request) →
      other = connectionId := by
  have hunique := h before ((List.prefix_append _ _).trans hbefore)
  have hafter := h _ hbefore
  rw [run_concat] at hafter
  exact (unique_subscribe_iff hunique hsubscribes).mp hafter

theorem resumesEndedSessions_of_keepsUnique (h : KeepsUnique pool events) :
    ResumesEndedSessions pool events := by
  intro before connectionId request hbefore hsubscribes extraNonce1 hcached other hholds
  apply h.free hbefore hsubscribes
  rw [assigned_of_cached hcached]
  exact hholds

theorem countsUnused_of_keepsUnique (h : KeepsUnique pool events) : CountsUnused pool events := by
  rintro before connectionId request hbefore hsubscribes hcached counter - other hholds rfl
  apply h.free hbefore hsubscribes
  rw [assigned_of_not_cached hcached]
  exact hholds

/-- A run that resumes no session in use and counts to no value in use keeps the extranonces
unique. -/
theorem keepsUnique_of_resumes_of_counts (hstart : pool.Unique)
    (hresumes : ResumesEndedSessions pool events) (hcounts : CountsUnused pool events) :
    KeepsUnique pool events := by
  intro before
  induction before using List.reverseRecOn with
  | nil => exact fun _ => hstart
  | append_singleton before event ih =>
      intro hbefore
      have hunique := ih ((List.prefix_append _ _).trans hbefore)
      rw [run_concat]
      by_cases hsubscribe : ∃ connectionId request, event = .subscribe connectionId request ∧
          (pool.run before).Subscribes connectionId request
      · obtain ⟨connectionId, request, rfl, hsubscribes⟩ := hsubscribe
        rw [unique_subscribe_iff hunique hsubscribes]
        intro other hholds
        cases hcached : (pool.run before).cachedExtraNonce1 request with
        | some extraNonce1 =>
            rw [assigned_of_cached hcached] at hholds
            exact hresumes before connectionId request hbefore hsubscribes extraNonce1 hcached
              other hholds
        | none =>
            rw [assigned_of_not_cached hcached] at hholds
            exact hcounts before connectionId request hbefore hsubscribes hcached _
              (Nat.le_of_lt_succ (Nat.mod_lt _ (Nat.succ_pos _))) other hholds rfl
      · refine unique_step_of_not_subscribes hunique fun connectionId request hevent hsubscribes =>
          hsubscribe ⟨connectionId, request, hevent, hsubscribes⟩

theorem unique_initial (instanceId : ℕ) : (BitcoinPool.initial instanceId).Unique := by
  rintro first second extraNonce1 ⟨subscriber, hlive, -⟩
  cases hlive

end runs

/-- The extranonces of live connections are unique along a run exactly when no session is resumed
and no counter value used again while another connection has the extranonce. -/
theorem keepsUnique_iff (instanceId : ℕ) (events : List PoolEvent) :
    KeepsUnique (.initial instanceId) events ↔
      ResumesEndedSessions (.initial instanceId) events ∧
        CountsUnused (.initial instanceId) events :=
  ⟨fun h => ⟨resumesEndedSessions_of_keepsUnique h, countsUnused_of_keepsUnique h⟩,
    fun h => keepsUnique_of_resumes_of_counts (unique_initial instanceId) h.1 h.2⟩

section live

variable {pool : BitcoinPool} {connectionId : String}

theorem live_of_live_step {event : PoolEvent}
    (h : (pool.step event).connections connectionId ≠ none) :
    pool.connections connectionId ≠ none ∨ event = .connect connectionId := by
  by_contra hnot
  obtain ⟨hdead, hevent⟩ := not_or.mp hnot
  rw [not_not] at hdead
  apply h
  cases event with
  | connect other =>
      have hne : connectionId ≠ other := fun heq => hevent (heq ▸ rfl)
      rw [BitcoinPool.step]
      split
      · exact hdead
      · exact (if_neg hne).trans hdead
  | subscribe other request =>
      rw [BitcoinPool.step]
      split
      · rename_i subscriber hlive
        have hne : connectionId ≠ other := by
          rintro rfl
          rw [hdead] at hlive
          cases hlive
        rw [BitcoinPool.onSubscribe]
        split
        · exact (if_neg hne).trans hdead
        · exact hdead
      · exact hdead
  | disconnect other =>
      rw [BitcoinPool.step, BitcoinPool.setConnection]
      dsimp only
      split
      · rfl
      · exact hdead
  | newJob => exact hdead

/-- A live connection was made. -/
theorem connect_mem_of_live {instanceId : ℕ} {events : List PoolEvent}
    (h : ((BitcoinPool.initial instanceId).run events).connections connectionId ≠ none) :
    .connect connectionId ∈ events := by
  induction events using List.reverseRecOn with
  | nil => exact absurd rfl h
  | append_singleton events event ih =>
      rw [run_concat] at h
      obtain hlive | rfl := live_of_live_step h
      · exact List.mem_append_left _ (ih hlive)
      · simp

end live

/-- A client presents the subscription of another connection, which is still live. -/
def resumedWhileLive : List PoolEvent :=
  [.connect "0HN8A", .subscribe "0HN8A" ⟨true, some [some "miner"], true⟩,
    .connect "0HN8B", .subscribe "0HN8B" ⟨true, some [some "miner", some "0HN8A"], true⟩]

/-- Two connections are live and have the same extranonce. -/
theorem not_keepsUnique_resumedWhileLive :
    (∀ before, before <+: resumedWhileLive →
        ((BitcoinPool.initial 1).run before).LiveAtMost (2 ^ idShift extranonceBytes)) ∧
      ¬ KeepsUnique (.initial 1) resumedWhileLive := by
  constructor
  · intro before hbefore
    refine ⟨["0HN8A", "0HN8B"], by decide, fun connectionId hlive => ?_⟩
    have hmem := hbefore.subset (connect_mem_of_live hlive)
    simpa [resumedWhileLive] using hmem
  · intro hkeeps
    have hfirst : ((BitcoinPool.initial 1).run resumedWhileLive).Holds "0HN8A"
        (ExtraNonceProvider.encode extranonceBytes 1 1) := ⟨_, rfl, rfl, rfl⟩
    have hsecond : ((BitcoinPool.initial 1).run resumedWhileLive).Holds "0HN8B"
        (ExtraNonceProvider.encode extranonceBytes 1 1) := ⟨_, rfl, rfl, rfl⟩
    exact absurd (hkeeps _ List.prefix_rfl _ _ _ hfirst hsecond) (by decide)

/-! ## Before the counter starts again -/

def PoolEvent.isSubscribe : PoolEvent → Bool
  | .subscribe _ _ => true
  | _ => false

/-- The extranonce has a value the counter has had since it started. -/
def BitcoinPool.Counted (pool : BitcoinPool) (extraNonce1 : List Char) : Prop :=
  ∃ counter ≤ pool.provider.counter,
    extraNonce1 = ExtraNonceProvider.encode extranonceBytes pool.provider.id counter

/-- All extranonces in use have been counted, one for each subscription. -/
structure BitcoinPool.Numbered (pool : BitcoinPool) (subscriptions : ℕ) : Prop where
  counter : pool.provider.counter ≤ subscriptions
  cached : ∀ sessionId extraNonce1, pool.sessionCache sessionId = some extraNonce1 →
    pool.Counted extraNonce1
  held : ∀ connectionId subscriber, pool.connections connectionId = some subscriber →
    ∀ extraNonce1 ∈ subscriber.extraNonce1, pool.Counted extraNonce1

section counting

variable {pool : BitcoinPool} {subscriptions : ℕ}

theorem numbered_initial (instanceId : ℕ) : (BitcoinPool.initial instanceId).Numbered 0 where
  counter := le_rfl
  cached _ _ h := by cases h
  held _ _ h := by cases h

theorem numbered_setConnection (h : pool.Numbered subscriptions) (connectionId : String)
    {subscriber : Option Subscriber}
    (hnone : ∀ context ∈ subscriber, context.extraNonce1 = none) :
    (pool.setConnection connectionId subscriber).Numbered subscriptions where
  counter := h.counter
  cached := h.cached
  held other context hcontext extraNonce1 hextra := by
    rw [BitcoinPool.setConnection] at hcontext
    dsimp only at hcontext
    split at hcontext
    · rw [hnone context hcontext] at hextra
      cases hextra
    · exact h.held other context hcontext extraNonce1 hextra

/-- A subscription counts one further. -/
theorem numbered_onSubscribe (h : pool.Numbered subscriptions)
    (hfew : subscriptions + 1 ≤ nonceMax extranonceBytes) (connectionId : String)
    (subscriber : Subscriber) (request : SubscribeRequest) :
    (pool.onSubscribe connectionId subscriber request).Numbered (subscriptions + 1) := by
  have hcounter := h.counter
  rw [BitcoinPool.onSubscribe]
  split
  · have hnext : pool.provider.nextCounter = pool.provider.counter + 1 := by
      rw [ExtraNonceProvider.nextCounter, if_neg (by omega)]
    have hkept {extraNonce1 : List Char} (hcounted : pool.Counted extraNonce1) :
        ∃ counter ≤ pool.provider.nextCounter,
          extraNonce1 = ExtraNonceProvider.encode extranonceBytes pool.provider.id counter := by
      obtain ⟨counter, hle, rfl⟩ := hcounted
      exact ⟨counter, by omega, rfl⟩
    have hassigned : ∃ counter ≤ pool.provider.nextCounter, pool.assigned request =
        ExtraNonceProvider.encode extranonceBytes pool.provider.id counter := by
      rw [BitcoinPool.assigned]
      cases hcached : pool.cachedExtraNonce1 request with
      | some extraNonce1 =>
          obtain ⟨sessionId, -, hsession⟩ := Option.bind_eq_some_iff.mp hcached
          exact hkept (h.cached sessionId extraNonce1 hsession)
      | none => exact ⟨_, le_rfl, rfl⟩
    refine ⟨?_, fun sessionId extraNonce1 hsession => ?_,
      fun other context hcontext extraNonce1 hextra => ?_⟩
    · change pool.provider.nextCounter ≤ subscriptions + 1
      omega
    · dsimp only at hsession
      split at hsession
      · cases hsession
        exact hassigned
      · exact hkept (h.cached sessionId extraNonce1 hsession)
    · dsimp only at hcontext
      split at hcontext
      · cases hcontext
        cases hextra
        exact hassigned
      · exact hkept (h.held other context hcontext extraNonce1 hextra)
  · exact ⟨by omega, h.cached, h.held⟩

theorem numbered_step (h : pool.Numbered subscriptions) {event : PoolEvent}
    (hfew : subscriptions + event.isSubscribe.toNat ≤ nonceMax extranonceBytes) :
    (pool.step event).Numbered (subscriptions + event.isSubscribe.toNat) := by
  cases event with
  | connect connectionId =>
      rw [BitcoinPool.step]
      split
      · exact h
      · exact numbered_setConnection h connectionId (by simp)
  | subscribe connectionId request =>
      rw [BitcoinPool.step]
      split
      · exact numbered_onSubscribe h hfew connectionId _ request
      · exact ⟨h.counter.trans (Nat.le_add_right _ _), h.cached, h.held⟩
  | disconnect connectionId => exact numbered_setConnection h connectionId (by simp)
  | newJob => exact h

theorem numbered_run (instanceId : ℕ) (events : List PoolEvent)
    (hfew : events.countP PoolEvent.isSubscribe ≤ nonceMax extranonceBytes) :
    ((BitcoinPool.initial instanceId).run events).Numbered
      (events.countP PoolEvent.isSubscribe) := by
  induction events using List.reverseRecOn with
  | nil => exact numbered_initial instanceId
  | append_singleton events event ih =>
      have hcount : (events ++ [event]).countP PoolEvent.isSubscribe =
          events.countP PoolEvent.isSubscribe + event.isSubscribe.toNat := by
        rw [List.countP_append, List.countP_singleton]
        cases event.isSubscribe <;> rfl
      rw [hcount] at hfew ⊢
      rw [run_concat]
      exact numbered_step (ih (by omega)) hfew

/-- The counter does not come back to any value before it starts again. -/
theorem countsUnused_of_few (instanceId : ℕ) {events : List PoolEvent}
    (hfew : events.countP PoolEvent.isSubscribe ≤ nonceMax extranonceBytes) :
    CountsUnused (.initial instanceId) events := by
  rintro before connectionId request hbefore - - counter hcounter other ⟨subscriber, hlive, -,
    hextra⟩ rfl
  have hcount := hbefore.sublist.countP_le (p := PoolEvent.isSubscribe)
  rw [List.countP_append, List.countP_singleton, PoolEvent.isSubscribe, if_pos rfl] at hcount
  have hnumbered := numbered_run instanceId before (by omega)
  have hle := hnumbered.counter
  obtain ⟨former, hformer, htext⟩ := hnumbered.held other subscriber hlive _ hextra
  have hmod := Nat.mod_eq_of_lt (show ((BitcoinPool.initial instanceId).run before).provider.counter
    + 1 < nonceMax extranonceBytes + 1 by omega)
  rw [hmod] at htext hcounter
  have hsame := encode_inj (by decide) (BitcoinPool.run _ before).provider.id_lt hcounter
    (by omega) htext
  omega

/-- Before the counter starts again, only a session that is resumed while its connection lives
gives two connections one extranonce. -/
theorem keepsUnique_iff_of_few (instanceId : ℕ) {events : List PoolEvent}
    (hfew : events.countP PoolEvent.isSubscribe ≤ nonceMax extranonceBytes) :
    KeepsUnique (.initial instanceId) events ↔
      ResumesEndedSessions (.initial instanceId) events :=
  ⟨resumesEndedSessions_of_keepsUnique, fun hresumes =>
    keepsUnique_of_resumes_of_counts (unique_initial instanceId) hresumes
      (countsUnused_of_few instanceId hfew)⟩

end counting

end Miningcore.Bitcoin
