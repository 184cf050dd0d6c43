import Mathlib.Data.List.Nodup
import Mathlib.Data.List.Basic
import Mathlib.Data.Set.Function
import Mathlib.Order.Interval.Set.Defs

/-!
# Registries of keys

A registry takes every key once. What is credited behind it has a value, and no
value is credited twice if equal values have equal keys. Numbers that are given
within a class make such keys.
-/

namespace Foundation

section credits

variable {α κ ν : Type*} [DecidableEq κ]

/-- The values credited along a list of submissions. One without a key is refused before it is
registered, one without a value behind it. -/
def creditedValues (key : α → Option κ) (value : α → Option ν) : List α → List κ → List ν
  | [], _ => []
  | a :: rest, registered =>
      match key a with
      | none => creditedValues key value rest registered
      | some k =>
          if k ∈ registered then creditedValues key value rest registered
          else (value a).toList ++ creditedValues key value rest (k :: registered)

variable {key : α → Option κ} {value : α → Option ν}

/-- A credited value comes with a key that was not registered before. -/
theorem exists_of_mem_creditedValues {submissions : List α} {registered : List κ} {v : ν}
    (h : v ∈ creditedValues key value submissions registered) :
    ∃ a ∈ submissions, ∃ k, key a = some k ∧ value a = some v ∧ k ∉ registered := by
  induction submissions generalizing registered with
  | nil => cases h
  | cons a rest ih =>
      rw [creditedValues] at h
      split at h
      · obtain ⟨b, hb, hrest⟩ := ih h
        exact ⟨b, List.mem_cons_of_mem a hb, hrest⟩
      · rename_i k hk
        split at h
        · obtain ⟨b, hb, hrest⟩ := ih h
          exact ⟨b, List.mem_cons_of_mem a hb, hrest⟩
        · rename_i hnew
          rw [List.mem_append] at h
          obtain hfirst | hlater := h
          · exact ⟨a, List.mem_cons_self, k, hk, Option.mem_toList.mp hfirst, hnew⟩
          · obtain ⟨b, hb, k', hk', hv, hnot⟩ := ih hlater
            exact ⟨b, List.mem_cons_of_mem a hb, k', hk', hv,
              fun hmem => hnot (List.mem_cons_of_mem k hmem)⟩

/-- No value is credited twice when equal values have equal keys. -/
theorem nodup_creditedValues {submissions : List α}
    (h : ∀ a ∈ submissions, ∀ b ∈ submissions, ∀ k k' v, key a = some k → key b = some k' →
      value a = some v → value b = some v → k = k') (registered : List κ) :
    (creditedValues key value submissions registered).Nodup := by
  induction submissions generalizing registered with
  | nil => exact List.nodup_nil
  | cons a rest ih =>
      have hrest := ih fun b hb c hc =>
        h b (List.mem_cons_of_mem a hb) c (List.mem_cons_of_mem a hc)
      rw [creditedValues]
      split
      · exact hrest registered
      · rename_i k hk
        split
        · exact hrest registered
        · cases hv : value a with
          | none => exact hrest _
          | some v =>
              rw [Option.toList_some, List.singleton_append, List.nodup_cons]
              refine ⟨fun hmem => ?_, hrest _⟩
              obtain ⟨b, hb, k', hk', hv', hnot⟩ := exists_of_mem_creditedValues hmem
              have hsame :=
                h a List.mem_cons_self b (List.mem_cons_of_mem a hb) k k' v hk hk' hv hv'
              rw [hsame] at hnot
              exact hnot List.mem_cons_self

/-- Two keys of one value credit it twice. -/
theorem creditedValues_pair {a b : α} {k k' : κ} {v : ν} (ha : key a = some k)
    (hb : key b = some k') (hne : k' ≠ k) (hv : value a = some v) (hv' : value b = some v) :
    creditedValues key value [a, b] [] = [v, v] := by
  simp [creditedValues, ha, hb, hv, hv', hne]

/-- Credited values are turned into others as the values of the submissions are. -/
theorem map_creditedValues {μ : Type*} (f : ν → μ) (submissions : List α) (registered : List κ) :
    (creditedValues key value submissions registered).map f =
      creditedValues key (fun a => (value a).map f) submissions registered := by
  induction submissions generalizing registered with
  | nil => rfl
  | cons a rest ih =>
      rw [creditedValues, creditedValues]
      cases key a with
      | none => exact ih registered
      | some k =>
          by_cases hmem : k ∈ registered
          · simp only [hmem, if_true]
            exact ih registered
          · simp only [hmem, if_false, List.map_append, ih]
            cases value a with
            | none => rfl
            | some v => rfl

section runs

variable {σ : Type*} (step : σ → α → σ)

/-- The events of a run with the states they meet. -/
def met (step : σ → α → σ) : σ → List α → List (σ × α)
  | _, [] => []
  | s, a :: rest => (s, a) :: met step (step s a) rest

variable {step}

/-- What every step preserves holds of the states that are met. -/
theorem met_invariant {P : σ → Prop} (hstep : ∀ s a, P s → P (step s a)) {s : σ} (hs : P s)
    (events : List α) : ∀ p ∈ met step s events, P p.1 := by
  induction events generalizing s with
  | nil =>
      intro p hp
      cases hp
  | cons a rest ih =>
      intro p hp
      rw [met, List.mem_cons] at hp
      obtain rfl | hp := hp
      · exact hs
      · exact ih (hstep s a hs) p hp

/-- What the steps of a run preserve holds behind it. -/
theorem foldl_invariant_of_met {P : σ → Prop} {good : σ → α → Prop}
    (hstep : ∀ s a, good s a → P s → P (step s a)) {s : σ} (hs : P s) (events : List α)
    (hgood : ∀ p ∈ met step s events, good p.1 p.2) : P (events.foldl step s) := by
  induction events generalizing s with
  | nil => exact hs
  | cons a rest ih =>
      rw [met] at hgood
      apply ih
      · exact hstep s a (hgood (s, a) List.mem_cons_self) hs
      · exact fun p hp => hgood p (List.mem_cons_of_mem _ hp)

/-- Of two states that are met, one comes from the other. -/
theorem met_comparable {R : σ → σ → Prop} (hrefl : ∀ s, R s s)
    (htrans : ∀ s t u, R s t → R t u → R s u) (hstep : ∀ s a, R s (step s a)) (s : σ)
    (events : List α) :
    ∀ p ∈ met step s events, ∀ q ∈ met step s events, R p.1 q.1 ∨ R q.1 p.1 := by
  have hlater (s : σ) (events : List α) : ∀ p ∈ met step s events, R s p.1 :=
    met_invariant (fun t a ht => htrans s t _ ht (hstep t a)) (hrefl s) events
  induction events generalizing s with
  | nil =>
      intro p hp
      cases hp
  | cons a rest ih =>
      intro p hp q hq
      have hfirst := hlater s (a :: rest)
      rw [met, List.mem_cons] at hp hq
      obtain rfl | hp := hp
      · exact Or.inl (hfirst q (by rwa [met, List.mem_cons]))
      · obtain rfl | hq := hq
        · exact Or.inr (hfirst p (by
            rw [met]
            exact List.mem_cons_of_mem _ hp))
        · exact ih (step s a) p hp q hq

/-- The state after a run comes from every state that is met. -/
theorem met_final {R : σ → σ → Prop} (hrefl : ∀ s, R s s)
    (htrans : ∀ s t u, R s t → R t u → R s u) (hstep : ∀ s a, R s (step s a)) (s : σ)
    (events : List α) : ∀ p ∈ met step s events, R p.1 (events.foldl step s) := by
  have hlater (s : σ) (events : List α) : R s (events.foldl step s) := by
    induction events generalizing s with
    | nil => exact hrefl s
    | cons a rest ih => exact htrans s (step s a) _ (hstep s a) (ih (step s a))
  induction events generalizing s with
  | nil =>
      intro p hp
      cases hp
  | cons a rest ih =>
      intro p hp
      rw [met, List.mem_cons] at hp
      obtain rfl | hp := hp
      · exact hlater s (a :: rest)
      · exact ih (step s a) p hp

variable {τ : Type*} (submitted : σ → α → Option τ)

/-- What the events of a run submit in the states they meet. -/
def submittedAlong (step : σ → α → σ) (s : σ) (events : List α) : List τ :=
  (met step s events).filterMap fun p => submitted p.1 p.2

/-- The values accepted along a run whose events are processed with a registry. -/
def acceptedAlong (step : σ → α → σ) (process : σ → α → List κ → List κ × Option ν) :
    σ → List α → List κ → List ν
  | _, [], _ => []
  | s, a :: rest, registered =>
      (process s a registered).2.toList ++
        acceptedAlong step process (step s a) rest (process s a registered).1

/-- Processing registers the key of what is submitted once, and has its value then. -/
structure Registers (submitted : σ → α → Option τ) (keyOf : τ → κ) (valueOf : τ → Option ν)
    (process : σ → α → List κ → List κ × Option ν) : Prop where
  refused {s : σ} {a : α} (h : submitted s a = none) (registered : List κ) :
    process s a registered = (registered, none)
  duplicate {s : σ} {a : α} {t : τ} (h : submitted s a = some t) {registered : List κ}
    (hmem : keyOf t ∈ registered) : process s a registered = (registered, none)
  first {s : σ} {a : α} {t : τ} (h : submitted s a = some t) {registered : List κ}
    (hnew : keyOf t ∉ registered) : process s a registered = (keyOf t :: registered, valueOf t)

variable {submitted} {keyOf : τ → κ} {valueOf : τ → Option ν}
  {process : σ → α → List κ → List κ × Option ν}

/-- It is enough to say what processing does in one equation. -/
theorem Registers.of_process_eq (h : ∀ s a registered, process s a registered =
    match submitted s a with
    | none => (registered, none)
    | some t =>
        if keyOf t ∈ registered then (registered, none)
        else (keyOf t :: registered, valueOf t)) :
    Registers submitted keyOf valueOf process where
  refused {s a} hsubmitted registered := by rw [h, hsubmitted]
  duplicate {s a t} hsubmitted registered hmem := by
    rw [h, hsubmitted]
    exact if_pos hmem
  first {s a t} hsubmitted registered hnew := by
    rw [h, hsubmitted]
    exact if_neg hnew

/-- A run that registers what is submitted credits the values of its submissions. -/
theorem acceptedAlong_eq_creditedValues (h : Registers submitted keyOf valueOf process)
    (s : σ) (events : List α) (registered : List κ) :
    acceptedAlong step process s events registered =
      creditedValues (fun t => some (keyOf t)) valueOf (submittedAlong submitted step s events)
        registered := by
  induction events generalizing s registered with
  | nil => rfl
  | cons a rest ih =>
      rw [acceptedAlong, submittedAlong, met, List.filterMap_cons, ← submittedAlong]
      cases hsubmitted : submitted s a with
      | none =>
          rw [h.refused hsubmitted]
          exact ih (step s a) registered
      | some t =>
          rw [creditedValues]
          by_cases hmem : keyOf t ∈ registered
          · rw [h.duplicate hsubmitted hmem]
            simp only [hmem, if_true]
            exact ih (step s a) registered
          · rw [h.first hsubmitted hmem]
            simp only [hmem, if_false]
            rw [ih]

/-- What is good enough twice under two keys is accepted twice. -/
theorem acceptedAlong_pair (h : Registers submitted keyOf valueOf process) {s : σ} {a b : α}
    {t t' : τ} {v : ν} (hfirst : submitted s a = some t)
    (hsecond : submitted (step s a) b = some t')
    (hne : keyOf t' ≠ keyOf t) (hv : valueOf t = some v) (hv' : valueOf t' = some v) :
    acceptedAlong step process s [a, b] [] = [v, v] := by
  have hsubmitted : submittedAlong submitted step s [a, b] = [t, t'] := by
    simp [submittedAlong, met, hfirst, hsecond]
  rw [acceptedAlong_eq_creditedValues h, hsubmitted]
  exact creditedValues_pair rfl rfl hne hv hv'

end runs

end credits

/-!
## Registries that are exact on the work behind their keys

Submissions are processed one after the other with one registry of keys. It is exact
when no work is accepted twice, and when only work that was submitted before is refused
as a duplicate. Keys that are equal when the work is, and only then, make it exact.
-/

section exact

variable {α κ ω ε β : Type*}

section runs

variable (process : α → List κ → List κ × Except ε β) (work : α → Option ω)

/-- The registry after some submissions. -/
def registryAfter : List α → List κ → List κ
  | [], registered => registered
  | a :: rest, registered => registryAfter rest (process a registered).1

/-- The work of the accepted submissions. -/
def acceptedWorks : List α → List κ → List ω
  | [], _ => []
  | a :: rest, registered =>
      match process a registered with
      | (registered, .ok _) => (work a).toList ++ acceptedWorks rest registered
      | (registered, .error _) => acceptedWorks rest registered

/-- No work is accepted twice, and what is refused as a duplicate was submitted before. -/
structure IsExact (duplicate : ε) (submissions : List α) : Prop where
  nodup : (acceptedWorks process work submissions []).Nodup
  submitted_before : ∀ before a after, submissions = before ++ a :: after →
    (process a (registryAfter process before [])).2 = .error duplicate →
      ∃ b ∈ before, work b = work a ∧ (work a).isSome

end runs

/-- Processing registers the key of a submission once, and has its share then. What has no key has
no work either. -/
structure RegistersOnce [DecidableEq κ] (key : α → Option κ) (work : α → Option ω)
    (share : α → Except ε β) (duplicate : ε)
    (process : α → List κ → List κ × Except ε β) : Prop where
  refused {a : α} (h : key a = none) (registered : List κ) :
    process a registered = (registered, share a)
  again {a : α} {k : κ} (h : key a = some k) {registered : List κ} (hmem : k ∈ registered) :
    process a registered = (registered, .error duplicate)
  first {a : α} {k : κ} (h : key a = some k) {registered : List κ} (hnew : k ∉ registered) :
    process a registered = (k :: registered, share a)
  share_ne (a : α) : share a ≠ .error duplicate
  isSome_work (a : α) : (work a).isSome = (key a).isSome

namespace RegistersOnce

variable [DecidableEq κ] {key : α → Option κ} {work : α → Option ω} {share : α → Except ε β}
  {duplicate : ε} {process : α → List κ → List κ × Except ε β}

/-- The work of a submission that is good enough for a share. -/
def goodWork (work : α → Option ω) (share : α → Except ε β) (a : α) : Option ω :=
  if (share a).toOption.isSome then work a else none

theorem goodWork_eq_some_iff {a : α} {w : ω} :
    goodWork work share a = some w ↔ (share a).toOption.isSome ∧ work a = some w := by
  rw [goodWork, Option.ite_none_right_eq_some]

variable (h : RegistersOnce key work share duplicate process)
include h

theorem acceptedWorks_eq_creditedValues (submissions : List α) (registered : List κ) :
    acceptedWorks process work submissions registered =
      creditedValues key (goodWork work share) submissions registered := by
  induction submissions generalizing registered with
  | nil => rfl
  | cons a rest ih =>
      rw [acceptedWorks, creditedValues]
      cases hkey : key a with
      | none =>
          have hwork : work a = none := by
            rw [← Option.isNone_iff_eq_none, ← Option.not_isSome, h.isSome_work a, hkey]
            rfl
          rw [h.refused hkey]
          cases share a with
          | error exception => exact ih registered
          | ok result => simp [hwork, ih]
      | some k =>
          by_cases hmem : k ∈ registered
          · rw [h.again hkey hmem]
            simp [hmem, ih]
          · rw [h.first hkey hmem]
            cases hshare : share a with
            | error exception => simp [hmem, ih, goodWork, hshare, Except.toOption]
            | ok result => simp [hmem, ih, goodWork, hshare, Except.toOption]

/-- A step adds the key of its submission. -/
theorem mem_process_iff {a : α} {registered : List κ} {k : κ} :
    k ∈ (process a registered).1 ↔ k ∈ registered ∨ key a = some k := by
  cases hkey : key a with
  | none => simp [h.refused hkey]
  | some k' =>
      rw [Option.some.injEq]
      by_cases hmem : k' ∈ registered
      · rw [h.again hkey hmem]
        exact ⟨Or.inl, fun hk => hk.elim id fun hsame => hsame ▸ hmem⟩
      · rw [h.first hkey hmem, List.mem_cons, eq_comm, or_comm]

theorem mem_registryAfter_iff {submissions : List α} {registered : List κ} {k : κ} :
    k ∈ registryAfter process submissions registered ↔
      k ∈ registered ∨ ∃ a ∈ submissions, key a = some k := by
  induction submissions generalizing registered with
  | nil => simp [registryAfter]
  | cons a rest ih =>
      rw [registryAfter, ih, h.mem_process_iff, List.exists_mem_cons_iff, or_assoc]

/-- A submission is refused as a duplicate exactly when its key is registered. -/
theorem eq_duplicate_iff {a : α} {registered : List κ} :
    (process a registered).2 = .error duplicate ↔ ∃ k ∈ registered, key a = some k := by
  cases hkey : key a with
  | none =>
      rw [h.refused hkey]
      exact iff_of_false (h.share_ne a) (by simp)
  | some k =>
      by_cases hmem : k ∈ registered
      · rw [h.again hkey hmem]
        exact iff_of_true rfl ⟨k, hmem, rfl⟩
      · rw [h.first hkey hmem]
        apply iff_of_false (h.share_ne a)
        rintro ⟨k', hmem', hsame⟩
        rw [Option.some.injEq] at hsame
        exact hmem (hsame ▸ hmem')

/-- No work is accepted twice when work that is equal has keys that are. -/
theorem nodup_acceptedWorks {submissions : List α}
    (hkeys : ∀ a ∈ submissions, ∀ b ∈ submissions, (key a).isSome → (key b).isSome →
      work a = work b → key a = key b) : (acceptedWorks process work submissions []).Nodup := by
  rw [h.acceptedWorks_eq_creditedValues]
  apply nodup_creditedValues
  intro a ha b hb k k' w hkey hkey' hgood hgood'
  obtain ⟨-, hwork⟩ := goodWork_eq_some_iff.mp hgood
  obtain ⟨-, hwork'⟩ := goodWork_eq_some_iff.mp hgood'
  have hsame := hkeys a ha b hb (Option.isSome_of_eq_some hkey) (Option.isSome_of_eq_some hkey')
    (hwork.trans hwork'.symm)
  exact Option.some.inj (hkey.symm.trans (hsame.trans hkey'))

/-- Work that is good enough is accepted again under any other key. -/
theorem acceptedWorks_pair {first second : α} (hkey : key first ≠ key second) {w : ω}
    (hgood : goodWork work share first = some w) (hgood' : goodWork work share second = some w) :
    acceptedWorks process work [first, second] [] = [w, w] := by
  have hsome {a : α} (ha : goodWork work share a = some w) : (key a).isSome := by
    rw [← h.isSome_work a, (goodWork_eq_some_iff.mp ha).2]
    rfl
  obtain ⟨k, hk⟩ := Option.isSome_iff_exists.mp (hsome hgood)
  obtain ⟨k', hk'⟩ := Option.isSome_iff_exists.mp (hsome hgood')
  have hne : k' ≠ k := by
    rintro rfl
    exact hkey (hk.trans hk'.symm)
  rw [h.acceptedWorks_eq_creditedValues]
  exact creditedValues_pair hk hk' hne hgood hgood'

/-- A registry is exact when keys are equal exactly when the work is. -/
theorem isExact {submissions : List α}
    (hexact : ∀ a ∈ submissions, ∀ b ∈ submissions, (key a).isSome → (key b).isSome →
      (key a = key b ↔ work a = work b)) : IsExact process work duplicate submissions where
  nodup := h.nodup_acceptedWorks fun a ha b hb hkey hkey' =>
    (hexact a ha b hb hkey hkey').mpr
  submitted_before := by
    rintro before a after rfl hduplicate
    obtain ⟨k, hmem, hkey⟩ := h.eq_duplicate_iff.mp hduplicate
    obtain hnone | ⟨b, hb, hkey'⟩ := h.mem_registryAfter_iff.mp hmem
    · cases hnone
    · refine ⟨b, hb, ?_, by rw [h.isSome_work a, hkey]; rfl⟩
      exact (hexact b (List.mem_append_left _ hb) a
        (List.mem_append_right _ List.mem_cons_self) (Option.isSome_of_eq_some hkey')
        (Option.isSome_of_eq_some hkey)).mp (hkey'.trans hkey.symm)

/-- Two texts of one key are no exact account of different work. -/
theorem not_isExact_of_key_eq {first second : α} (hkey : key first = key second)
    (hsome : (key second).isSome) (hne : work first ≠ work second) :
    ¬ IsExact process work duplicate [first, second] := by
  intro hexact
  obtain ⟨k, hk⟩ := Option.isSome_iff_exists.mp hsome
  have hmem : k ∈ registryAfter process [first] [] :=
    h.mem_registryAfter_iff.mpr (Or.inr ⟨first, List.mem_singleton_self first, hkey.trans hk⟩)
  obtain ⟨b, hb, hwork, -⟩ := hexact.submitted_before [first] second [] rfl
    (h.eq_duplicate_iff.mpr ⟨k, hmem, hk⟩)
  rw [List.mem_singleton] at hb
  rw [hb] at hwork
  exact hne hwork

/-- Two texts of different keys are no exact account of one work that is good enough. -/
theorem not_isExact_of_goodWork_eq {first second : α} (hkey : key first ≠ key second) {w : ω}
    (hgood : goodWork work share first = some w) (hgood' : goodWork work share second = some w) :
    ¬ IsExact process work duplicate [first, second] := by
  intro hexact
  have hnodup := hexact.nodup
  rw [h.acceptedWorks_pair hkey hgood hgood'] at hnodup
  simp at hnodup

end RegistersOnce

end exact

/-!
## Numbers within a class

Every element of a list has a number that comes from how many elements of its class
are in front of it. Within a class numbers tell the elements apart as long as the
numbers of the counts do.
-/

section numbering

variable {α κ ν : Type*} [DecidableEq κ]

/-- How many elements of a class are in a list. -/
def classCount (kind : α → κ) (k : κ) (l : List α) : ℕ := l.countP fun a => kind a = k

/-- The number of every element is the one of the count in front of it. -/
def NumberedBy (kind : α → κ) (number : α → ν) (next : ℕ → ν) (l : List α) : Prop :=
  ∀ i a, l[i]? = some a → number a = next (classCount kind (kind a) (l.take i))

variable {kind : α → κ} {number : α → ν} {next : ℕ → ν} {l : List α}

@[simp] theorem classCount_append (k : κ) (first second : List α) :
    classCount kind k (first ++ second) = classCount kind k first + classCount kind k second :=
  List.countP_append

@[simp] theorem classCount_singleton (k : κ) (a : α) :
    classCount kind k [a] = if kind a = k then 1 else 0 := by
  simp [classCount, List.countP_singleton]

theorem classCount_eq_zero {k : κ} (h : ∀ a ∈ l, kind a ≠ k) : classCount kind k l = 0 :=
  List.countP_eq_zero.mpr fun a ha => by simpa using h a ha

section takes

variable {k : κ} {i j : ℕ} {a : α}

/-- An element is counted behind itself. -/
theorem classCount_take_lt (hi : l[i]? = some a) (ha : kind a = k) (hij : i < j) :
    classCount kind k (l.take i) < classCount kind k (l.take j) := by
  obtain ⟨hlt, rfl⟩ := List.getElem?_eq_some_iff.mp hi
  have hstart : l.take (i + 1) <+: l.take j := List.take_prefix_take_left hij
  calc classCount kind k (l.take i)
      < classCount kind k (l.take (i + 1)) := by
        rw [List.take_succ_eq_append_getElem hlt, classCount_append, classCount_singleton,
          if_pos ha]
        exact Nat.lt_succ_self _
    _ ≤ classCount kind k (l.take j) := hstart.sublist.countP_le

theorem classCount_take_lt_classCount (hi : l[i]? = some a) (ha : kind a = k) :
    classCount kind k (l.take i) < classCount kind k l := by
  obtain ⟨hlt, -⟩ := List.getElem?_eq_some_iff.mp hi
  have h := classCount_take_lt hi ha hlt
  rwa [List.take_length] at h

end takes

theorem numberedBy_nil : NumberedBy kind number next [] := by
  intro i a h
  simp at h

theorem NumberedBy.concat (h : NumberedBy kind number next l) {a : α}
    (ha : number a = next (classCount kind (kind a) l)) :
    NumberedBy kind number next (l ++ [a]) := by
  intro i b hb
  obtain hlt | rfl | hgt := lt_trichotomy i l.length
  · rw [List.getElem?_append_left hlt] at hb
    rw [h i b hb, List.take_append_of_le_length hlt.le]
  · rw [List.getElem?_concat_length, Option.some.injEq] at hb
    rw [← hb, ha, List.take_left']
    rfl
  · have hlength : (l ++ [a]).length ≤ i := by
      rw [List.length_append, List.length_singleton]
      exact hgt
    rw [List.getElem?_eq_none hlength] at hb
    cases hb

/-- A number is in a class once. -/
theorem NumberedBy.index_unique (h : NumberedBy kind number next l) {k : κ}
    (hnext : Set.InjOn next (Set.Iio (classCount kind k l))) {i j : ℕ} {a b : α}
    (hi : l[i]? = some a) (hj : l[j]? = some b) (ha : kind a = k) (hb : kind b = k)
    (hnumber : number a = number b) : i = j := by
  have hcount : classCount kind k (l.take i) = classCount kind k (l.take j) := by
    apply hnext
    · exact classCount_take_lt_classCount hi ha
    · exact classCount_take_lt_classCount hj hb
    · rw [← ha, ← h i a hi, hnumber, h j b hj, hb, ha]
  obtain hlt | heq | hgt := lt_trichotomy i j
  · exact absurd hcount (classCount_take_lt hi ha hlt).ne
  · exact heq
  · exact absurd hcount (classCount_take_lt hj hb hgt).ne'

end numbering

end Foundation
