import Mathlib.Data.List.Induction
import Mathlib.Order.Lattice

/-!
# Caches whose entries end

An entry of a cache is found until the time it ends, and setting it again
replaces that time. A system that sets entries while time passes keeps what every
entry promised exactly when no step sets one to end before the one in force does.
-/

namespace Foundation

/-- The time at which each entry ends. -/
structure ExpiringCache (κ τ : Type*) where
  ending : κ → Option τ

namespace ExpiringCache

variable {κ τ : Type*}

def empty : ExpiringCache κ τ := ⟨fun _ => none⟩

@[simp] theorem ending_empty (key : κ) : (empty : ExpiringCache κ τ).ending key = none := rfl

section time

variable [LinearOrder τ]

/-- An entry is found before it ends. -/
def Contains (cache : ExpiringCache κ τ) (time : τ) (key : κ) : Prop :=
  ∃ ending ∈ cache.ending key, time < ending

instance decidableContains (cache : ExpiringCache κ τ) (time : τ) (key : κ) :
    Decidable (cache.Contains time key) :=
  decidable_of_iff ((cache.ending key).any (decide <| time < ·) = true) <| by
    simp [Contains, Option.any_eq_true]

end time

variable [DecidableEq κ]

def set (cache : ExpiringCache κ τ) (key : κ) (ending : τ) : ExpiringCache κ τ :=
  ⟨fun other => if other = key then some ending else cache.ending other⟩

/-- The cache after a step that may set an entry. -/
def write (cache : ExpiringCache κ τ) : Option (κ × τ) → ExpiringCache κ τ
  | none => cache
  | some (key, ending) => cache.set key ending

@[simp] theorem ending_set_self (cache : ExpiringCache κ τ) (key : κ) (ending : τ) :
    (cache.set key ending).ending key = some ending :=
  if_pos rfl

theorem ending_set_of_ne (cache : ExpiringCache κ τ) {key other : κ} (h : other ≠ key)
    (ending : τ) : (cache.set key ending).ending other = cache.ending other :=
  if_neg h

@[simp] theorem write_none (cache : ExpiringCache κ τ) : cache.write none = cache := rfl

@[simp] theorem write_some (cache : ExpiringCache κ τ) (key : κ) (ending : τ) :
    cache.write (some (key, ending)) = cache.set key ending := rfl

end ExpiringCache

/-- A system whose steps take time and may set an entry that ends later. -/
structure CachingSystem (σ α κ τ : Type*) [DecidableEq κ] [LinearOrder τ] where
  step : σ → α → σ
  clock : σ → τ
  cache : σ → ExpiringCache κ τ
  entry : σ → α → Option (κ × τ)
  clock_le (s : σ) (a : α) : clock s ≤ clock (step s a)
  cache_step (s : σ) (a : α) : cache (step s a) = (cache s).write (entry s a)
  clock_lt (s : σ) (a : α) (key : κ) (ending : τ) :
    entry s a = some (key, ending) → clock (step s a) < ending

namespace CachingSystem

variable {σ α κ τ : Type*} [DecidableEq κ] [LinearOrder τ] (system : CachingSystem σ α κ τ) (s : σ)

def run (actions : List α) : σ :=
  actions.foldl system.step s

/-- What an entry was set for holds in every later state, until it ends. -/
def KeepsEntries (actions : List α) : Prop :=
  ∀ earlier a later, earlier ++ a :: later <+: actions →
    ∀ key ending, system.entry (system.run s earlier) a = some (key, ending) →
      ∀ time, system.clock (system.run s (earlier ++ a :: later)) ≤ time → time < ending →
        (system.cache (system.run s (earlier ++ a :: later))).Contains time key

/-- No step sets an entry to end before the one in force. -/
def NeverShortens (actions : List α) : Prop :=
  ∀ earlier a, earlier ++ [a] <+: actions →
    ∀ key ending, system.entry (system.run s earlier) a = some (key, ending) →
      ∀ old ∈ (system.cache (system.run s earlier)).ending key,
        system.clock (system.run s (earlier ++ [a])) < old → old ≤ ending

variable {system s}

theorem run_concat (actions : List α) (a : α) :
    system.run s (actions ++ [a]) = system.step (system.run s actions) a := by
  rw [run, List.foldl_append, List.foldl_cons, List.foldl_nil, run]

theorem clock_run_le_concat (system : CachingSystem σ α κ τ) (s : σ) (actions : List α) (a : α) :
    system.clock (system.run s actions) ≤ system.clock (system.run s (actions ++ [a])) := by
  rw [run_concat]
  exact system.clock_le _ a

theorem clock_run_le_append (system : CachingSystem σ α κ τ) (s : σ) (actions later : List α) :
    system.clock (system.run s actions) ≤ system.clock (system.run s (actions ++ later)) := by
  induction later using List.reverseRecOn with
  | nil => rw [List.append_nil]
  | append_singleton later a ih =>
      rw [← List.append_assoc]
      exact ih.trans (clock_run_le_concat system s (actions ++ later) a)

/-- The entry of a step is the one the cache has after it. -/
theorem ending_of_entry {actions : List α} {a : α} {key : κ} {ending : τ}
    (h : system.entry (system.run s actions) a = some (key, ending)) :
    (system.cache (system.run s (actions ++ [a]))).ending key = some ending := by
  rw [run_concat, system.cache_step, h, ExpiringCache.write_some, ExpiringCache.ending_set_self]

/-- An entry is over, or the one in force ends no sooner. -/
theorem ending_le_of_neverShortens {actions : List α} (h : system.NeverShortens s actions)
    {earlier : List α} {a : α} {key : κ} {ending : τ}
    (hentry : system.entry (system.run s earlier) a = some (key, ending)) (later : List α)
    (hactions : earlier ++ a :: later <+: actions) :
    ending ≤ system.clock (system.run s (earlier ++ a :: later)) ∨
      ∃ last, (system.cache (system.run s (earlier ++ a :: later))).ending key = some last ∧
        ending ≤ last := by
  induction later using List.reverseRecOn with
  | nil => exact Or.inr ⟨ending, ending_of_entry hentry, le_rfl⟩
  | append_singleton later b ih =>
      have happend : earlier ++ a :: (later ++ [b]) = (earlier ++ a :: later) ++ [b] := by simp
      rw [happend] at hactions ⊢
      have hclock := clock_run_le_concat system s (earlier ++ a :: later) b
      obtain hover | ⟨last, hlast, hle⟩ := ih ((List.prefix_append _ _).trans hactions)
      · exact Or.inl (hover.trans hclock)
      · cases hset : system.entry (system.run s (earlier ++ a :: later)) b with
        | none =>
            refine Or.inr ⟨last, ?_, hle⟩
            rw [run_concat, system.cache_step, hset, ExpiringCache.write_none, hlast]
        | some entry =>
            obtain ⟨other, newer⟩ := entry
            by_cases hkey : key = other
            · subst hkey
              by_cases hforce : system.clock (system.run s ((earlier ++ a :: later) ++ [b])) < last
              · refine Or.inr ⟨newer, ending_of_entry hset, hle.trans ?_⟩
                exact h _ b hactions key newer hset last hlast hforce
              · exact Or.inl (hle.trans (not_lt.mp hforce))
            · refine Or.inr ⟨last, ?_, hle⟩
              rw [run_concat, system.cache_step, hset, ExpiringCache.write_some,
                ExpiringCache.ending_set_of_ne _ hkey, hlast]

/-- What a cache has was set by some step. -/
theorem exists_entry_of_ending (hempty : system.cache s = ExpiringCache.empty) {actions : List α}
    {key : κ} {ending : τ}
    (h : (system.cache (system.run s actions)).ending key = some ending) :
    ∃ earlier a later, actions = earlier ++ a :: later ∧
      system.entry (system.run s earlier) a = some (key, ending) := by
  induction actions using List.reverseRecOn with
  | nil =>
      have hnone : (system.cache s).ending key = some ending := h
      rw [hempty] at hnone
      cases hnone
  | append_singleton actions a ih =>
      have hkept : (system.cache (system.run s actions)).ending key = some ending →
          ∃ earlier b later, actions ++ [a] = earlier ++ b :: later ∧
            system.entry (system.run s earlier) b = some (key, ending) := by
        intro hold
        obtain ⟨earlier, b, later, rfl, hentry⟩ := ih hold
        exact ⟨earlier, b, later ++ [a], by simp, hentry⟩
      rw [run_concat, system.cache_step] at h
      cases hset : system.entry (system.run s actions) a with
      | none =>
          rw [hset, ExpiringCache.write_none] at h
          exact hkept h
      | some entry =>
          obtain ⟨other, newer⟩ := entry
          rw [hset, ExpiringCache.write_some] at h
          by_cases hkey : key = other
          · subst hkey
            rw [ExpiringCache.ending_set_self, Option.some.injEq] at h
            exact ⟨actions, a, [], rfl, h ▸ hset⟩
          · rw [ExpiringCache.ending_set_of_ne _ hkey] at h
            exact hkept h

/-- Entries are kept exactly when none is set to end sooner. -/
theorem keepsEntries_iff_neverShortens (hempty : system.cache s = ExpiringCache.empty)
    (actions : List α) : system.KeepsEntries s actions ↔ system.NeverShortens s actions := by
  constructor
  · intro hkeeps earlier a hactions key ending hentry old hold hforce
    obtain ⟨first, b, later, rfl, hfirst⟩ := exists_entry_of_ending hempty hold
    by_contra hshort
    have hlater : (first ++ b :: later) ++ [a] = first ++ b :: (later ++ [a]) := by simp
    have hclock : system.clock (system.run s ((first ++ b :: later) ++ [a])) < ending := by
      rw [run_concat]
      exact system.clock_lt _ a key ending hentry
    have hcontains := hkeeps first b (later ++ [a]) (hlater ▸ hactions) key old hfirst ending
      (hlater ▸ hclock.le) (not_le.mp hshort)
    obtain ⟨last, hlast, hlt⟩ := hcontains
    rw [← hlater, ending_of_entry hentry, Option.mem_some_iff] at hlast
    subst hlast
    exact lt_irrefl ending hlt
  · intro hnever earlier a later hactions key ending hentry time hclock htime
    obtain hover | ⟨last, hlast, hle⟩ := ending_le_of_neverShortens hnever hentry later hactions
    · exact absurd htime (not_lt.mpr (hover.trans hclock))
    · exact ⟨last, hlast, htime.trans_le hle⟩

end CachingSystem

end Foundation
