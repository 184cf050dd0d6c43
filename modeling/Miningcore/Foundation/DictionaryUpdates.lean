import Miningcore.Foundation.Dictionary
import Mathlib.Data.List.Nodup
import Mathlib.Logic.Function.Basic
import Mathlib.Tactic.Common

/-!
# Updates of single entries

The value of one key is set, added when there is none, or removed. Every update is described by
what it makes of a lookup.
-/

namespace Foundation

namespace Dictionary

variable {κ ν : Type*} [DecidableEq κ]

def values (d : Dictionary κ ν) : List ν := d.entries.map Prod.snd

theorem mem_entries_of_find? {d : Dictionary κ ν} {k : κ} {v : ν} (h : d.find? k = some v) :
    (k, v) ∈ d.entries := by
  obtain ⟨⟨j, w⟩, hfind, rfl⟩ := Option.map_eq_some_iff.mp h
  have hkey := List.find?_some hfind
  obtain rfl : j = k := of_decide_eq_true hkey
  exact List.mem_of_find?_eq_some hfind

theorem find?_of_mem_entries {d : Dictionary κ ν} {k : κ} {v : ν} (h : (k, v) ∈ d.entries) :
    d.find? k = some v := by
  obtain ⟨w, hw⟩ := exists_find? (List.mem_map_of_mem h : k ∈ d.keys)
  have hsingle := d.filter_key_eq h
  have hmem : (k, w) ∈ d.entries.filter fun entry => entry.1 = k :=
    List.mem_filter.mpr ⟨mem_entries_of_find? hw, decide_eq_true rfl⟩
  rw [hsingle, List.mem_singleton] at hmem
  rw [hw, (Prod.mk.inj hmem).2]

theorem find?_eq_some_iff {d : Dictionary κ ν} {k : κ} {v : ν} :
    d.find? k = some v ↔ (k, v) ∈ d.entries := ⟨mem_entries_of_find?, find?_of_mem_entries⟩

theorem exists_find?_iff {d : Dictionary κ ν} {k : κ} :
    (∃ v, d.find? k = some v) ↔ k ∈ d.keys := by
  constructor
  · rintro ⟨v, hv⟩
    exact List.mem_map_of_mem (mem_entries_of_find? hv)
  · exact exists_find?

/-! ### A new key -/

/-- A value is added when its key has none. -/
def tryAdd (d : Dictionary κ ν) (k : κ) (v : ν) : Dictionary κ ν :=
  if h : k ∈ d.keys then d
  else
    { entries := d.entries ++ [(k, v)]
      nodup := by
        rw [List.map_append, List.map_singleton]
        exact List.nodup_append_comm.mp (List.nodup_cons.mpr ⟨h, d.nodup⟩) }

theorem tryAdd_of_mem {d : Dictionary κ ν} {k : κ} (h : k ∈ d.keys) (v : ν) : d.tryAdd k v = d :=
  dif_pos h

theorem entries_tryAdd_of_notMem {d : Dictionary κ ν} {k : κ} (h : k ∉ d.keys) (v : ν) :
    (d.tryAdd k v).entries = d.entries ++ [(k, v)] := by
  rw [tryAdd, dif_neg h]

/-- The first value of a key stays. -/
theorem find?_tryAdd (d : Dictionary κ ν) (k j : κ) (v : ν) :
    (d.tryAdd k v).find? j = (d.find? j).or (if j = k then some v else none) := by
  by_cases hk : k ∈ d.keys
  · rw [tryAdd_of_mem hk]
    by_cases hj : j = k
    · obtain ⟨w, hw⟩ := exists_find? (hj ▸ hk)
      rw [hw, Option.some_or]
    · rw [if_neg hj, Option.or_none]
  · rw [find?, find?, entries_tryAdd_of_notMem hk, List.find?_append, Option.map_or]
    by_cases hj : j = k
    · simp [hj]
    · simp [hj, Ne.symm hj]

/-! ### A removed key -/

def remove (d : Dictionary κ ν) (k : κ) : Dictionary κ ν where
  entries := d.entries.filter fun entry => entry.1 ≠ k
  nodup := d.nodup.sublist (List.filter_sublist.map Prod.fst)

theorem find?_remove (d : Dictionary κ ν) (k j : κ) :
    (d.remove k).find? j = if j = k then none else d.find? j := by
  by_cases hj : j = k
  · rw [if_pos hj, find?_eq_none_iff, keys, remove]
    simp [hj]
  · rw [if_neg hj]
    ext v
    simp [find?_eq_some_iff, remove, hj]

theorem mem_keys_remove {d : Dictionary κ ν} {k j : κ} :
    j ∈ (d.remove k).keys ↔ j ≠ k ∧ j ∈ d.keys := by
  rw [← exists_find?_iff, ← exists_find?_iff, find?_remove]
  by_cases hj : j = k <;> simp [hj]

/-! ### A new value -/

def set (d : Dictionary κ ν) (k : κ) (v : ν) : Dictionary κ ν := (d.remove k).tryAdd k v

theorem find?_set (d : Dictionary κ ν) (k j : κ) (v : ν) :
    (d.set k v).find? j = if j = k then some v else d.find? j := by
  rw [set, find?_tryAdd, find?_remove]
  by_cases hj : j = k <;> simp [hj]

theorem mem_keys_set {d : Dictionary κ ν} {k j : κ} {v : ν} :
    j ∈ (d.set k v).keys ↔ j = k ∨ j ∈ d.keys := by
  rw [← exists_find?_iff, ← exists_find?_iff, find?_set]
  by_cases hj : j = k <;> simp [hj]

/-! ### Accumulated values -/

theorem amountAt_of_mem_entries [Zero ν] {d : Dictionary κ ν} {k : κ} {v : ν}
    (h : (k, v) ∈ d.entries) : d.amountAt k = v := by
  rw [amountAt, find?_of_mem_entries h]
  rfl

section accumulateAll

variable [AddCommMonoid ν] [LinearOrder ν]

theorem amountAt_accumulatePos_of_ne (d : Dictionary κ ν) {k j : κ} (h : k ≠ j) (v : ν) :
    (d.accumulatePos k v).amountAt j = d.amountAt j := by
  rw [accumulatePos]
  split
  · rw [amountAt_accumulate, if_neg h, add_zero]
  · rfl

/-- A key that is not in the list keeps its value. -/
theorem amountAt_accumulateAll_of_notMem (d : Dictionary κ ν) {l : List (κ × ν)} {k : κ}
    (h : k ∉ l.map Prod.fst) : (d.accumulateAll l).amountAt k = d.amountAt k := by
  induction l generalizing d with
  | nil => rfl
  | cons e l ih =>
      rw [List.map_cons, List.mem_cons, not_or] at h
      rw [accumulateAll_cons, ih _ h.2, amountAt_accumulatePos_of_ne d (Ne.symm h.1)]

theorem keys_subset_accumulatePos (d : Dictionary κ ν) (k : κ) (v : ν) :
    d.keys ⊆ (d.accumulatePos k v).keys := by
  intro j hj
  rw [accumulatePos]
  split
  · exact (mem_keys_accumulate d k j v).mpr (Or.inr hj)
  · exact hj

theorem keys_subset_accumulateAll (d : Dictionary κ ν) (l : List (κ × ν)) :
    d.keys ⊆ (d.accumulateAll l).keys := by
  induction l generalizing d with
  | nil => exact fun _ h => h
  | cons e l ih => exact fun _ h => ih _ (keys_subset_accumulatePos d e.1 e.2 h)

variable [IsOrderedAddMonoid ν]

theorem amountAt_le_accumulatePos (d : Dictionary κ ν) (k j : κ) (v : ν) :
    d.amountAt j ≤ (d.accumulatePos k v).amountAt j := by
  rw [accumulatePos]
  split
  · rename_i hpos
    rw [amountAt_accumulate]
    split
    · exact le_add_of_nonneg_right hpos.le
    · rw [add_zero]
  · exact le_rfl

/-- No value gets smaller. -/
theorem amountAt_le_accumulateAll (d : Dictionary κ ν) (l : List (κ × ν)) (k : κ) :
    d.amountAt k ≤ (d.accumulateAll l).amountAt k := by
  induction l generalizing d with
  | nil => exact le_rfl
  | cons e l ih => exact (amountAt_le_accumulatePos d e.1 k e.2).trans (ih _)

end accumulateAll

end Dictionary

/-!
## Folds that act on one key at a time

A concrete state shows a value for every key. Operations that change what is shown for their
own key only can be run over distinct keys: each key's value is changed once.
-/

section folds

variable {ι σ S : Type*} [DecidableEq ι] {Shows : S → (ι → σ) → Prop} {op : S → ι → S}
  {effect : σ → σ}

/-- The values when an effect has been had at some keys. -/
def changedAt (effect : σ → σ) (keys : List ι) (values : ι → σ) : ι → σ :=
  fun i => if i ∈ keys then effect (values i) else values i

theorem changedAt_nil (values : ι → σ) : changedAt effect [] values = values := by
  ext i
  simp [changedAt]

theorem changedAt_of_mem {keys : List ι} {values : ι → σ} {i : ι} (h : i ∈ keys) :
    changedAt effect keys values i = effect (values i) := if_pos h

theorem changedAt_of_notMem {keys : List ι} {values : ι → σ} {i : ι} (h : i ∉ keys) :
    changedAt effect keys values i = values i := if_neg h

theorem changedAt_cons {k : ι} {keys : List ι} (hk : k ∉ keys) (values : ι → σ) :
    changedAt effect keys (Function.update values k (effect (values k))) =
      changedAt effect (k :: keys) values := by
  ext i
  by_cases hi : i = k
  · subst hi
    rw [changedAt_of_notMem hk, changedAt_of_mem List.mem_cons_self, Function.update_self]
  · simp [changedAt, hi]

/-- Distinct keys are changed once each when every operation changes its own. -/
theorem shows_foldl (pre : ι → σ → Prop)
    (hop : ∀ s values i, Shows s values → pre i (values i) →
      Shows (op s i) (Function.update values i (effect (values i))))
    {keys : List ι} (hkeys : keys.Nodup) {s : S} {values : ι → σ}
    (hpre : ∀ i ∈ keys, pre i (values i)) (h : Shows s values) :
    Shows (keys.foldl op s) (changedAt effect keys values) := by
  induction keys generalizing s values with
  | nil => rwa [changedAt_nil]
  | cons k keys ih =>
      obtain ⟨hk, hkeys⟩ := List.nodup_cons.mp hkeys
      rw [List.foldl_cons, ← changedAt_cons hk]
      apply ih hkeys
      · intro i hi
        have hne : i ≠ k := fun heq => hk (heq ▸ hi)
        rw [Function.update_of_ne hne]
        exact hpre i (List.mem_cons_of_mem _ hi)
      · exact hop s values k h (hpre k List.mem_cons_self)

end folds

end Foundation
