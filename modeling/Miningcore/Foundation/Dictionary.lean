import Mathlib.Algebra.Order.BigOperators.Group.List
import Mathlib.Algebra.Order.Group.Defs
import Mathlib.Data.List.Nodup

/-!
# Insertion-ordered dictionaries

A dictionary enumerates its entries in the order in which their keys were first
added. The only update needed here adds a value to the entry of a key, or
appends a new entry when the key is absent.
-/

namespace Foundation

/-- Selecting a key that occurs once selects one element. -/
theorem filter_eq_singleton {α κ : Type*} [DecidableEq κ] {key : α → κ} {l : List α}
    (h : (l.map key).Nodup) {a : α} (ha : a ∈ l) : l.filter (fun b => key b = key a) = [a] := by
  induction l with
  | nil => cases ha
  | cons b l ih =>
      rw [List.map_cons, List.nodup_cons] at h
      cases List.mem_cons.mp ha with
      | inl heq =>
          subst heq
          have hnil : l.filter (fun b => key b = key a) = [] := by
            rw [List.filter_eq_nil_iff]
            intro b hb heq
            apply h.1
            rw [← of_decide_eq_true heq]
            exact List.mem_map_of_mem hb
          simp [hnil]
      | inr hrest =>
          have hne : key b ≠ key a := fun heq => h.1 (heq ▸ List.mem_map_of_mem hrest)
          simp [hne, ih h.2 hrest]

/-- Entries in order of first insertion, each key at most once. -/
structure Dictionary (κ ν : Type*) where
  entries : List (κ × ν)
  nodup : (entries.map Prod.fst).Nodup

namespace Dictionary

variable {κ ν : Type*}

theorem ext {d e : Dictionary κ ν} (h : d.entries = e.entries) : d = e := by
  cases d; cases e; congr

instance [DecidableEq κ] [DecidableEq ν] : DecidableEq (Dictionary κ ν) := fun d e =>
  decidable_of_iff (d.entries = e.entries) ⟨ext, congrArg entries⟩

def empty : Dictionary κ ν := ⟨[], List.nodup_nil⟩

def singleton (k : κ) (v : ν) : Dictionary κ ν := ⟨[(k, v)], List.nodup_singleton k⟩

def keys (d : Dictionary κ ν) : List κ := d.entries.map Prod.fst

@[simp] theorem entries_empty : (empty : Dictionary κ ν).entries = [] := rfl

@[simp] theorem entries_singleton (k : κ) (v : ν) : (singleton k v).entries = [(k, v)] := rfl

/-- The sum of all values. -/
def total [AddMonoid ν] (d : Dictionary κ ν) : ν := (d.entries.map Prod.snd).sum

@[simp] theorem total_empty [AddMonoid ν] : (empty : Dictionary κ ν).total = 0 := rfl

@[simp] theorem total_singleton [AddMonoid ν] (k : κ) (v : ν) : (singleton k v).total = v := by
  simp [total]

variable [DecidableEq κ]

/-- The value stored under a key. -/
def find? (d : Dictionary κ ν) (k : κ) : Option ν :=
  (d.entries.find? fun e => decide (e.1 = k)).map Prod.snd

theorem find?_eq_none_iff (d : Dictionary κ ν) (k : κ) : d.find? k = none ↔ k ∉ d.keys := by
  simp [find?, keys, List.find?_eq_none]
  grind

theorem exists_find? {d : Dictionary κ ν} {k : κ} (h : k ∈ d.keys) : ∃ v, d.find? k = some v := by
  cases hf : d.find? k with
  | none => exact absurd h ((find?_eq_none_iff d k).mp hf)
  | some v => exact ⟨v, rfl⟩

/-- Add to the entry of a key in a list of entries, appending a new entry at the end. -/
def addEntry [Add ν] (k : κ) (v : ν) : List (κ × ν) → List (κ × ν)
  | [] => [(k, v)]
  | e :: rest => if e.1 = k then (k, e.2 + v) :: rest else e :: addEntry k v rest

theorem keys_addEntry [Add ν] (k : κ) (v : ν) (l : List (κ × ν)) :
    (addEntry k v l).map Prod.fst =
      if k ∈ l.map Prod.fst then l.map Prod.fst else l.map Prod.fst ++ [k] := by
  induction l with
  | nil => simp [addEntry]
  | cons e rest ih =>
      by_cases he : e.1 = k
      · simp [addEntry, he]
      · have hne : ¬k = e.1 := fun h => he h.symm
        simp only [addEntry, he, if_false, List.map_cons, ih, List.mem_cons, hne, false_or]
        split <;> simp

theorem nodup_addEntry [Add ν] (k : κ) (v : ν) {l : List (κ × ν)}
    (h : (l.map Prod.fst).Nodup) : ((addEntry k v l).map Prod.fst).Nodup := by
  rw [keys_addEntry]
  split
  · exact h
  · rename_i hk
    exact List.nodup_append.mpr ⟨h, List.nodup_singleton k, by grind⟩

/-- `d[k] += v`, where a missing key starts from its first value. -/
def accumulate [Add ν] (d : Dictionary κ ν) (k : κ) (v : ν) : Dictionary κ ν :=
  ⟨addEntry k v d.entries, nodup_addEntry k v d.nodup⟩

theorem mem_keys_accumulate [Add ν] (d : Dictionary κ ν) (k j : κ) (v : ν) :
    j ∈ (d.accumulate k v).keys ↔ j = k ∨ j ∈ d.keys := by
  simp only [keys, accumulate, keys_addEntry]
  split
  · grind
  · simp [or_comm]

theorem total_accumulate [AddCommMonoid ν] (d : Dictionary κ ν) (k : κ) (v : ν) :
    (d.accumulate k v).total = d.total + v := by
  have key : ∀ l : List (κ × ν),
      ((addEntry k v l).map Prod.snd).sum = (l.map Prod.snd).sum + v := by
    intro l
    induction l with
    | nil => simp [addEntry]
    | cons e rest ih =>
        by_cases he : e.1 = k
        · simp [addEntry, he, add_right_comm]
        · simp [addEntry, he, ih, add_assoc]
  exact key d.entries

/-- A property of all values survives an addition that keeps it. -/
theorem forall_values_accumulate [Add ν] {P : ν → Prop} {d : Dictionary κ ν} {k : κ} {v : ν}
    (hd : ∀ e ∈ d.entries, P e.2) (hv : P v) (hadd : ∀ a, P a → P (a + v)) :
    ∀ e ∈ (d.accumulate k v).entries, P e.2 := by
  have key : ∀ l : List (κ × ν), (∀ e ∈ l, P e.2) → ∀ e ∈ addEntry k v l, P e.2 := by
    intro l
    induction l with
    | nil =>
        intro _ e he
        simp only [addEntry, List.mem_singleton] at he
        exact he ▸ hv
    | cons a rest ih =>
        intro hl e he
        by_cases ha : a.1 = k
        · simp only [addEntry, ha, if_true, List.mem_cons] at he
          rcases he with rfl | he
          · exact hadd _ (hl a List.mem_cons_self)
          · exact hl e (List.mem_cons_of_mem _ he)
        · simp only [addEntry, ha, if_false, List.mem_cons] at he
          rcases he with rfl | he
          · exact hl _ List.mem_cons_self
          · exact ih (fun e he => hl e (List.mem_cons_of_mem _ he)) e he
  exact key d.entries hd

/-- The value stored under a key, zero when there is none. -/
def amountAt [Zero ν] (d : Dictionary κ ν) (k : κ) : ν := (d.find? k).getD 0

@[simp] theorem amountAt_empty [Zero ν] (k : κ) : (empty : Dictionary κ ν).amountAt k = 0 := rfl

theorem amountAt_accumulate [AddMonoid ν] (d : Dictionary κ ν) (k j : κ) (v : ν) :
    (d.accumulate k v).amountAt j = d.amountAt j + if k = j then v else 0 := by
  have key : ∀ l : List (κ × ν),
      (((addEntry k v l).find? fun e => decide (e.1 = j)).map Prod.snd).getD 0 =
        ((l.find? fun e => decide (e.1 = j)).map Prod.snd).getD 0 + if k = j then v else 0 := by
    intro l
    induction l with
    | nil => by_cases hk : k = j <;> simp [addEntry, hk]
    | cons e rest ih =>
        rw [addEntry]
        by_cases he : e.1 = k
        · by_cases hk : k = j <;> simp [he, hk]
        · rw [if_neg he]
          by_cases hj : e.1 = j
          · have hk : k ≠ j := fun h => he (hj.trans h.symm)
            simp [hj, hk]
          · simpa [hj] using ih
  exact key d.entries

/-- The value under a key of the entry list of a dictionary. -/
theorem amountAt_eq_sum [AddMonoid ν] (d : Dictionary κ ν) (k : κ) :
    d.amountAt k = ((d.entries.filter fun e => e.1 = k).map Prod.snd).sum := by
  have key : ∀ l : List (κ × ν), (l.map Prod.fst).Nodup →
      ((l.find? fun e => decide (e.1 = k)).map Prod.snd).getD 0 =
        ((l.filter fun e => e.1 = k).map Prod.snd).sum := by
    intro l
    induction l with
    | nil => simp
    | cons e rest ih =>
        intro hl
        rw [List.map_cons, List.nodup_cons] at hl
        by_cases he : e.1 = k
        · have hnil : rest.filter (fun a => a.1 = k) = [] := by
            rw [List.filter_eq_nil_iff]
            intro b hb heq
            apply hl.1
            rw [he, ← of_decide_eq_true heq]
            exact List.mem_map_of_mem hb
          simp [he, hnil]
        · simpa [he] using ih hl.2
  exact key d.entries d.nodup

/-- Selecting a key of the dictionary selects one entry. -/
theorem filter_key_eq (d : Dictionary κ ν) {e : κ × ν} (he : e ∈ d.entries) :
    d.entries.filter (fun a => a.1 = e.1) = [e] := filter_eq_singleton d.nodup he

theorem eraseDups_keys (d : Dictionary κ ν) : d.keys.eraseDups = d.keys := by
  have key : ∀ l : List κ, l.Nodup → l.eraseDups = l := by
    intro l
    induction l with
    | nil => simp
    | cons k l ih =>
        intro hl
        obtain ⟨hk, hl⟩ := List.nodup_cons.mp hl
        have hself : l.filter (fun b => !b == k) = l := by
          rw [List.filter_eq_self]
          intro b hb
          have hne : b ≠ k := fun h => hk (h ▸ hb)
          simp [hne]
        rw [List.eraseDups_cons, hself, ih hl]
  exact key d.keys d.nodup

/-! ## Accumulating positive values only -/

section Positive

variable [AddCommMonoid ν] [LinearOrder ν]

/-- `d[k] += v` for a positive value. -/
def accumulatePos (d : Dictionary κ ν) (k : κ) (v : ν) : Dictionary κ ν :=
  if 0 < v then d.accumulate k v else d

/-- The positive values of a list are accumulated one after the other. -/
def accumulateAll (d : Dictionary κ ν) (l : List (κ × ν)) : Dictionary κ ν :=
  l.foldl (fun d e => d.accumulatePos e.1 e.2) d

@[simp] theorem accumulateAll_nil (d : Dictionary κ ν) : d.accumulateAll [] = d := rfl

theorem accumulateAll_cons (d : Dictionary κ ν) (e : κ × ν) (l : List (κ × ν)) :
    d.accumulateAll (e :: l) = (d.accumulatePos e.1 e.2).accumulateAll l := rfl

theorem accumulateAll_append (d : Dictionary κ ν) (l₁ l₂ : List (κ × ν)) :
    d.accumulateAll (l₁ ++ l₂) = (d.accumulateAll l₁).accumulateAll l₂ := List.foldl_append

theorem accumulateAll_of_not_pos {l : List (κ × ν)} (h : ∀ e ∈ l, ¬0 < e.2)
    (d : Dictionary κ ν) : d.accumulateAll l = d := by
  induction l with
  | nil => rfl
  | cons e l ih =>
      rw [accumulateAll_cons, accumulatePos, if_neg (h e List.mem_cons_self)]
      exact ih fun a ha => h a (List.mem_cons_of_mem _ ha)

theorem mem_keys_accumulateAll {d : Dictionary κ ν} {l : List (κ × ν)} {k : κ}
    (h : k ∈ (d.accumulateAll l).keys) : k ∈ d.keys ∨ k ∈ l.map Prod.fst := by
  induction l generalizing d with
  | nil => exact Or.inl h
  | cons e l ih =>
      rcases ih h with hkeys | hl
      · simp only [accumulatePos] at hkeys
        split at hkeys
        · rcases (mem_keys_accumulate ..).mp hkeys with rfl | hkeys
          · exact Or.inr List.mem_cons_self
          · exact Or.inl hkeys
        · exact Or.inl hkeys
      · exact Or.inr (List.mem_cons_of_mem _ hl)

theorem total_accumulatePos (d : Dictionary κ ν) (k : κ) (v : ν) :
    (d.accumulatePos k v).total = d.total + max 0 v := by
  rw [accumulatePos]
  split
  · rename_i hpos
    rw [total_accumulate, max_eq_right hpos.le]
  · rename_i hpos
    rw [max_eq_left (not_lt.mp hpos), add_zero]

theorem total_accumulateAll (d : Dictionary κ ν) (l : List (κ × ν)) :
    (d.accumulateAll l).total = d.total + (l.map fun e => max 0 e.2).sum := by
  induction l generalizing d with
  | nil => simp
  | cons e l ih =>
      rw [accumulateAll_cons, ih, total_accumulatePos, List.map_cons, List.sum_cons, add_assoc]

theorem amountAt_accumulateAll_of_nonneg (d : Dictionary κ ν) {l : List (κ × ν)}
    (h : ∀ e ∈ l, 0 ≤ e.2) (k : κ) :
    (d.accumulateAll l).amountAt k =
      d.amountAt k + ((l.filter fun e => e.1 = k).map Prod.snd).sum := by
  induction l generalizing d with
  | nil => simp
  | cons e l ih =>
      have hstep : (d.accumulatePos e.1 e.2).amountAt k =
          d.amountAt k + if e.1 = k then e.2 else 0 := by
        rw [accumulatePos]
        split
        · exact amountAt_accumulate d e.1 k e.2
        · rename_i hpos
          have hzero : e.2 = 0 := le_antisymm (not_lt.mp hpos) (h e List.mem_cons_self)
          simp [hzero]
      rw [accumulateAll_cons, ih _ fun a ha => h a (List.mem_cons_of_mem _ ha), hstep]
      by_cases he : e.1 = k <;> simp [he, add_assoc]

theorem total_accumulateAll_of_nonneg (d : Dictionary κ ν) {l : List (κ × ν)}
    (h : ∀ e ∈ l, 0 ≤ e.2) : (d.accumulateAll l).total = d.total + (l.map Prod.snd).sum := by
  rw [total_accumulateAll]
  congr 2
  apply List.map_congr_left
  intro e he
  exact max_eq_right (h e he)

variable [IsOrderedAddMonoid ν]

theorem values_accumulateAll {d : Dictionary κ ν} (l : List (κ × ν))
    (h : ∀ e ∈ d.entries, 0 ≤ e.2) : ∀ e ∈ (d.accumulateAll l).entries, 0 ≤ e.2 := by
  induction l generalizing d with
  | nil => exact h
  | cons e l ih =>
      apply ih
      simp only [accumulatePos]
      split
      · rename_i hpos
        exact forall_values_accumulate h hpos.le fun a ha => add_nonneg ha hpos.le
      · exact h

end Positive

/-- A positive value in the list raises the total. -/
theorem total_lt_accumulateAll [AddCommMonoid ν] [LinearOrder ν] [IsOrderedCancelAddMonoid ν]
    (d : Dictionary κ ν) {l : List (κ × ν)} (h : ∃ e ∈ l, 0 < e.2) :
    d.total < (d.accumulateAll l).total := by
  obtain ⟨e, he, hpos⟩ := h
  rw [total_accumulateAll]
  refine lt_add_of_pos_right _ ?_
  calc (0 : ν) < max 0 e.2 := lt_max_of_lt_right hpos
    _ ≤ (l.map fun e => max 0 e.2).sum := by
      apply List.single_le_sum
      · intro x hx
        obtain ⟨a, _, rfl⟩ := List.mem_map.mp hx
        exact le_max_left _ _
      · exact List.mem_map_of_mem he

end Dictionary

end Foundation
