import Mathlib.Data.Finset.Card
import Mathlib.Data.List.Infix
import Mathlib.Data.List.Nodup

/-!
# Keys in the order of their last use

The keys that were used, the last one first, without repetitions. What keeps the first
ones of them keeps a key until enough other keys have been used after it.
-/

namespace Foundation

universe u

variable {κ : Type u} [DecidableEq κ]

/-- The keys of a list of uses, the last used first. -/
def recent (uses : List κ) : List κ := uses.foldl (fun keys key => key :: keys.erase key) []

/-- The keys that are kept after a use. -/
def keepRecent (size : ℕ) (keys : List κ) (key : κ) : List κ :=
  key :: (keys.erase key).take (size - 1)

section recent

variable {uses : List κ} {key : κ}

@[simp] theorem recent_nil : recent ([] : List κ) = [] := rfl

@[simp] theorem recent_append_singleton (uses : List κ) (key : κ) :
    recent (uses ++ [key]) = key :: (recent uses).erase key := by
  rw [recent, List.foldl_append]
  rfl

theorem nodup_recent (uses : List κ) : (recent uses).Nodup := by
  induction uses using List.reverseRecOn with
  | nil => exact List.nodup_nil
  | append_singleton uses key ih =>
      rw [recent_append_singleton, List.nodup_cons]
      exact ⟨ih.not_mem_erase, ih.erase key⟩

theorem mem_recent : key ∈ recent uses ↔ key ∈ uses := by
  induction uses using List.reverseRecOn with
  | nil => exact Iff.rfl
  | append_singleton uses last ih =>
      rw [recent_append_singleton, List.mem_cons, List.mem_append, List.mem_singleton,
        (nodup_recent uses).mem_erase_iff, ih]
      tauto

/-- Keeping the first keys is one step for each use. -/
theorem take_recent_append_singleton {size : ℕ} (hsize : 0 < size) (uses : List κ) (key : κ) :
    (recent (uses ++ [key])).take size = keepRecent size ((recent uses).take size) key := by
  obtain ⟨size, rfl⟩ := Nat.exists_eq_succ_of_ne_zero hsize.ne'
  rw [recent_append_singleton, List.take_succ_cons, keepRecent, Nat.succ_sub_one]
  congr 1
  clear hsize
  induction recent uses generalizing size with
  | nil => simp
  | cons first keys ih =>
      by_cases hfirst : first = key
      · rw [hfirst, List.take_succ_cons, List.erase_cons_head, List.erase_cons_head,
          List.take_take, Nat.min_self]
      · have hne : ¬ (first == key) = true := by simpa using hfirst
        rw [List.take_succ_cons, List.erase_cons_tail hne, List.erase_cons_tail hne]
        cases size with
        | zero => rfl
        | succ size => rw [List.take_succ_cons, List.take_succ_cons, ih]

/-- In front of a key are only keys that were used after it. -/
theorem exists_front (before : List κ) (key : κ) (after : List κ) :
    ∃ front rest, recent (before ++ key :: after) = front ++ key :: rest ∧
      front.Nodup ∧ key ∉ front ∧ ∀ other ∈ front, other ∈ after := by
  induction after using List.reverseRecOn with
  | nil =>
      exact ⟨[], (recent before).erase key, recent_append_singleton before key, List.nodup_nil,
        List.not_mem_nil, fun _ h => absurd h List.not_mem_nil⟩
  | append_singleton after last ih =>
      obtain ⟨front, rest, heq, hnodup, hnotMem, hafter⟩ := ih
      have happend : before ++ key :: (after ++ [last]) = (before ++ key :: after) ++ [last] := by
        rw [List.append_assoc, List.cons_append]
      rw [happend, recent_append_singleton, heq]
      by_cases hlast : last = key
      · refine ⟨[], (front ++ key :: rest).erase key, ?_, List.nodup_nil, List.not_mem_nil,
          fun _ h => absurd h List.not_mem_nil⟩
        rw [hlast, List.nil_append]
      · by_cases hmem : last ∈ front
        · refine ⟨last :: front.erase last, rest, ?_, ?_, ?_, ?_⟩
          · rw [List.erase_append_left _ hmem, List.cons_append]
          · exact List.nodup_cons.mpr ⟨hnodup.not_mem_erase, hnodup.erase last⟩
          · rw [List.mem_cons, not_or]
            exact ⟨Ne.symm hlast, fun h => hnotMem (List.mem_of_mem_erase h)⟩
          · intro other hother
            rw [List.mem_append, List.mem_singleton]
            rcases List.mem_cons.mp hother with rfl | hother
            · exact .inr rfl
            · exact .inl (hafter other (List.mem_of_mem_erase hother))
        · have hne : ¬ (key == last) = true := by simpa using Ne.symm hlast
          refine ⟨last :: front, rest.erase last, ?_, ?_, ?_, ?_⟩
          · rw [List.erase_append_right _ hmem, List.erase_cons_tail hne, List.cons_append]
          · exact List.nodup_cons.mpr ⟨hmem, hnodup⟩
          · rw [List.mem_cons, not_or]
            exact ⟨Ne.symm hlast, hnotMem⟩
          · intro other hother
            rw [List.mem_append, List.mem_singleton]
            rcases List.mem_cons.mp hother with rfl | hother
            · exact .inr rfl
            · exact .inl (hafter other hother)

/-- A key is kept until as many others have been used as are kept. -/
theorem mem_take_recent {size : ℕ} (before : List κ) {after : List κ}
    (h : (after.toFinset.erase key).card < size) :
    key ∈ (recent (before ++ key :: after)).take size := by
  obtain ⟨front, rest, heq, hnodup, hnotMem, hafter⟩ := exists_front before key after
  have hcard : front.length ≤ (after.toFinset.erase key).card := by
    rw [← List.toFinset_card_of_nodup hnodup]
    apply Finset.card_le_card
    intro other hother
    rw [List.mem_toFinset] at hother
    rw [Finset.mem_erase, List.mem_toFinset]
    exact ⟨fun heq => hnotMem (heq ▸ hother), hafter other hother⟩
  obtain ⟨rest', hsize⟩ := Nat.exists_eq_add_of_lt (hcard.trans_lt h)
  rw [heq, hsize, Nat.add_assoc, List.take_length_add_append, List.take_succ_cons]
  exact List.mem_append_right _ List.mem_cons_self

end recent

end Foundation
