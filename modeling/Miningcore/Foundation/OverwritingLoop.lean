import Mathlib.Data.List.Basic

/-!
# Loops that overwrite

A loop over a list that may fail goes over the list when no element fails by
itself. A field that some elements overwrite ends as the last of them left it.
A place of a buffer that lists are copied to holds what the last of them left
that reaches it.
-/

namespace Foundation

variable {α β γ δ : Type*} {f : β → α → Option β}

/-- Whether a loop fails is decided by its elements when each fails or not in every state. -/
theorem isSome_foldlM_iff {ok : α → Prop} (hok : ∀ state a, (f state a).isSome ↔ ok a)
    (items : List α) (state : β) : (items.foldlM f state).isSome ↔ ∀ a ∈ items, ok a := by
  induction items generalizing state with
  | nil => simp
  | cons a items ih =>
      rw [List.foldlM_cons, List.forall_mem_cons, ← hok state a]
      cases f state a with
      | none => simp
      | some next => simp [ih next]

/-- What a field holds after an element: its value if it is selected, the old one otherwise. -/
def Overwrites (f : β → α → Option β) (field : β → γ) (select : α → Option δ)
    (value : δ → Option γ) : Prop :=
  ∀ state a next, f state a = some next →
    (select a).elim (some (field state)) value = some (field next)

variable {field : β → γ} {select : α → Option δ} {value : δ → Option γ}

theorem Overwrites.foldlM (h : Overwrites f field select value) {items : List α}
    {state final : β} (hrun : items.foldlM f state = some final) :
    (items.filterMap select).getLast?.elim (some (field state)) value = some (field final) := by
  induction items generalizing state with
  | nil =>
      obtain rfl : state = final := Option.some_inj.mp hrun
      rfl
  | cons a items ih =>
      rw [List.foldlM_cons] at hrun
      obtain ⟨next, hnext, hrest⟩ := Option.bind_eq_some_iff.mp hrun
      have hfield := h state a next hnext
      have hlast := ih hrest
      cases hselect : select a with
      | none =>
          rw [hselect] at hfield
          rw [List.filterMap_cons_none hselect, show field state = field next from
            Option.some_inj.mp hfield]
          exact hlast
      | some d =>
          rw [hselect] at hfield
          rw [List.filterMap_cons_some hselect, List.getLast?_cons]
          cases hl : (items.filterMap select).getLast? with
          | none =>
              rw [hl] at hlast
              exact hfield.trans hlast
          | some e =>
              rw [hl] at hlast
              exact hlast

/-! ### Buffers -/

/-- The loop that copies a list to a buffer from the place `i` on, and whether there is room for
all of it. -/
def copyFrom (i : ℕ) (buffer : List α) : List α → List α × Bool
  | [] => (buffer, true)
  | a :: items =>
      if i < buffer.length then copyFrom (i + 1) (buffer.set i a) items else (buffer, false)

/-- A list over the front of a buffer, as far as there is room. -/
def copyOver (buffer items : List α) : List α :=
  items.take buffer.length ++ buffer.drop items.length

theorem copyFrom_eq (pre rest items : List α) :
    copyFrom pre.length (pre ++ rest) items =
      (pre ++ copyOver rest items, decide (items.length ≤ rest.length)) := by
  induction items generalizing pre rest with
  | nil => simp [copyFrom, copyOver]
  | cons a items ih =>
      cases rest with
      | nil => simp [copyFrom, copyOver]
      | cons b rest =>
          have hset : (pre ++ b :: rest).set pre.length a = pre ++ [a] ++ rest := by simp
          have hnext := ih (pre ++ [a]) rest
          rw [List.length_append, List.length_singleton] at hnext
          rw [copyFrom, if_pos (by simp), hset, hnext]
          simp [copyOver]

theorem copyFrom_zero (buffer items : List α) :
    copyFrom 0 buffer items = (copyOver buffer items, decide (items.length ≤ buffer.length)) :=
  copyFrom_eq [] buffer items

@[simp] theorem length_copyOver (buffer items : List α) :
    (copyOver buffer items).length = buffer.length := by
  rw [copyOver, List.length_append, List.length_take, List.length_drop]
  omega

theorem getElem?_copyOver {buffer : List α} (items : List α) {i : ℕ} (h : i < buffer.length) :
    (copyOver buffer items)[i]? = items[i]?.or buffer[i]? := by
  by_cases hi : i < items.length
  · have hinside : i < (items.take buffer.length).length := by
      rw [List.length_take]
      omega
    rw [copyOver, List.getElem?_append_left hinside, List.getElem?_take_of_lt h,
      List.getElem?_eq_getElem hi, Option.some_or]
  · have hlength : (items.take buffer.length).length = items.length := by
      rw [List.length_take]
      omega
    have hplace : items.length + (i - items.length) = i := by omega
    rw [copyOver, List.getElem?_append_right (by omega), hlength, List.getElem?_drop, hplace,
      List.getElem?_eq_none (Nat.le_of_not_lt hi), Option.none_or]

/-- What the last of the copied lists that reach a place has there. -/
def lastAt (i : ℕ) (copied : List (List α)) : Option α :=
  (copied.filterMap fun items => items[i]?).getLast?

theorem getElem?_foldl_copyOver {buffer : List α} (copied : List (List α)) {i : ℕ}
    (h : i < buffer.length) :
    (copied.foldl copyOver buffer)[i]? = (lastAt i copied).or buffer[i]? := by
  induction copied generalizing buffer with
  | nil => rfl
  | cons items copied ih =>
      have hlong : i < (copyOver buffer items).length := by rwa [length_copyOver]
      rw [List.foldl_cons, ih hlong, getElem?_copyOver items h, lastAt, lastAt]
      cases hitem : items[i]? with
      | none =>
          have hskip : (items :: copied).filterMap (fun items => items[i]?) =
              copied.filterMap fun items => items[i]? := List.filterMap_cons_none hitem
          rw [hskip, Option.none_or]
      | some a =>
          have hkeep : (items :: copied).filterMap (fun items => items[i]?) =
              a :: copied.filterMap fun items => items[i]? := List.filterMap_cons_some hitem
          rw [hkeep, List.getLast?_cons]
          cases (copied.filterMap fun items => items[i]?).getLast? with
          | none => rfl
          | some b => rfl

@[simp] theorem length_foldl_copyOver (buffer : List α) (copied : List (List α)) :
    (copied.foldl copyOver buffer).length = buffer.length := by
  induction copied generalizing buffer with
  | nil => rfl
  | cons items copied ih => rw [List.foldl_cons, ih, length_copyOver]

/-- Earlier lists do not show behind a list if and only if the buffer has there what the last of
them left. -/
theorem copyOver_foldl_eq_iff (buffer items : List α) (copied : List (List α)) :
    copyOver (copied.foldl copyOver buffer) items = copyOver buffer items ↔
      ∀ i, items.length ≤ i → i < buffer.length →
        ∀ a ∈ lastAt i copied, buffer[i]? = some a := by
  have hplace (i : ℕ) (hi : i < buffer.length) :
      (copyOver (copied.foldl copyOver buffer) items)[i]? = (copyOver buffer items)[i]? ↔
        (items.length ≤ i → ∀ a ∈ lastAt i copied, buffer[i]? = some a) := by
    rw [getElem?_copyOver items (by rwa [length_foldl_copyOver]), getElem?_copyOver items hi,
      getElem?_foldl_copyOver copied hi]
    by_cases hitem : i < items.length
    · rw [List.getElem?_eq_getElem hitem, Option.some_or, Option.some_or]
      exact iff_of_true rfl fun hle => absurd hitem (Nat.not_lt_of_le hle)
    · have hle := Nat.le_of_not_lt hitem
      rw [List.getElem?_eq_none hle, Option.none_or, Option.none_or]
      cases lastAt i copied with
      | none => simp
      | some a => simp [eq_comm, hle]
  constructor
  · intro heq i hle hi
    exact (hplace i hi).mp (by rw [heq]) hle
  · intro h
    apply List.ext_getElem?
    intro i
    by_cases hi : i < buffer.length
    · exact (hplace i hi).mpr fun hle => h i hle hi
    · rw [List.getElem?_eq_none (by rw [length_copyOver, length_foldl_copyOver]; omega),
        List.getElem?_eq_none (by rw [length_copyOver]; omega)]

end Foundation
