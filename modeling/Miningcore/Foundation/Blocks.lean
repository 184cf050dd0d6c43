import Mathlib.Algebra.BigOperators.Group.List.Basic
import Mathlib.Data.List.Basic

/-!
# Lists in blocks

A list is cut into blocks of one size and a shorter last one, in one way only. A
list of distinct numbers is looked up in a table of the places they have.
-/

namespace Foundation

universe u

variable {α : Type u}

/-- The blocks that are complete. -/
def fullBlocks (size : ℕ) (l : List α) : List (List α) :=
  (List.range (l.length / size)).map fun i => (l.drop (i * size)).take size

/-- What is left behind them. -/
def lastBlock (size : ℕ) (l : List α) : List α := l.drop (l.length / size * size)

section blocks

variable {size : ℕ} {l : List α}

theorem length_lastBlock (size : ℕ) (l : List α) :
    (lastBlock size l).length = l.length % size := by
  have hdiv := Nat.div_add_mod' l.length size
  rw [lastBlock, List.length_drop]
  omega

theorem length_of_mem_fullBlocks {block : List α} (h : block ∈ fullBlocks size l) :
    block.length = size := by
  obtain ⟨i, hi, rfl⟩ := List.mem_map.mp h
  have hend : (i + 1) * size ≤ l.length / size * size :=
    Nat.mul_le_mul_right _ (List.mem_range.mp hi)
  have hlength := Nat.div_mul_le_self l.length size
  rw [Nat.add_one_mul] at hend
  rw [List.length_take, List.length_drop]
  omega

/-- The first block comes off a list that is as long as it. -/
theorem fullBlocks_append {block : List α} (hsize : 0 < size) (hblock : block.length = size) :
    fullBlocks size (block ++ l) = block :: fullBlocks size l := by
  have hcount : (block ++ l).length / size = l.length / size + 1 := by
    rw [List.length_append, hblock, Nat.add_div_left _ hsize]
  rw [fullBlocks, hcount, List.range_succ_eq_map, List.map_cons, List.map_map, Nat.zero_mul,
    List.drop_zero, List.take_left' hblock]
  congr 1
  apply List.map_congr_left
  intro i _
  have hskip : i.succ * size = block.length + i * size := by
    rw [hblock, Nat.succ_mul, Nat.add_comm]
  rw [Function.comp_apply, hskip, List.drop_append, List.drop_eq_nil_of_le (Nat.le_add_right _ _),
    List.nil_append, Nat.add_sub_cancel_left]

theorem lastBlock_append {block : List α} (hsize : 0 < size) (hblock : block.length = size) :
    lastBlock size (block ++ l) = lastBlock size l := by
  have hskip : (block ++ l).length / size * size = block.length + l.length / size * size := by
    rw [List.length_append, hblock, Nat.add_div_left _ hsize, Nat.succ_mul, Nat.add_comm]
  rw [lastBlock, hskip, List.drop_append, List.drop_eq_nil_of_le (Nat.le_add_right _ _),
    List.nil_append, Nat.add_sub_cancel_left, lastBlock]

/-- The blocks of which a list is made are the ones it is cut into. -/
theorem blocks_flatten {blocks : List (List α)} {last : List α}
    (hblocks : ∀ block ∈ blocks, block.length = size) (hlast : last.length < size) :
    fullBlocks size (blocks.flatten ++ last) = blocks ∧
      lastBlock size (blocks.flatten ++ last) = last := by
  have hsize : 0 < size := Nat.zero_lt_of_lt hlast
  induction blocks with
  | nil =>
      rw [List.flatten_nil, List.nil_append, fullBlocks, lastBlock, Nat.div_eq_of_lt hlast]
      simp
  | cons block blocks ih =>
      obtain ⟨hblock, hblocks⟩ := List.forall_mem_cons.mp hblocks
      rw [List.flatten_cons, List.append_assoc, fullBlocks_append hsize hblock,
        lastBlock_append hsize hblock, (ih hblocks).1, (ih hblocks).2]
      exact ⟨rfl, rfl⟩

theorem flatten_fullBlocks (hsize : 0 < size) (l : List α) :
    (fullBlocks size l).flatten ++ lastBlock size l = l := by
  induction hcount : l.length / size generalizing l with
  | zero => simp [fullBlocks, lastBlock, hcount]
  | succ count ih =>
      have hle : size ≤ l.length := by
        by_contra hlt
        rw [Nat.div_eq_of_lt (Nat.lt_of_not_le hlt)] at hcount
        exact absurd hcount (Nat.succ_ne_zero count).symm
      have hblock : (l.take size).length = size := by
        rw [List.length_take, Nat.min_eq_left hle]
      have hrest : (l.drop size).length / size = count := by
        obtain ⟨rest, hrest⟩ := Nat.exists_eq_add_of_le hle
        rw [hrest, Nat.add_div_left _ hsize] at hcount
        rw [List.length_drop, hrest, Nat.add_sub_cancel_left]
        exact Nat.succ.inj hcount
      have hcut := ih (l.drop size) hrest
      rw [← List.take_append_drop size l, fullBlocks_append hsize hblock,
        lastBlock_append hsize hblock, List.flatten_cons, List.append_assoc, hcut]

end blocks

/-! ### Tables of places -/

/-- At each of the values its place is noted. -/
def reverseTable (size : ℕ) (values : List ℕ) : List (Option ℕ) :=
  values.zipIdx.foldl (fun table value => table.set value.1 (some value.2))
    (List.replicate size none)

section reverseTable

variable {size : ℕ} {values : List ℕ}

theorem getElem?_noted_of_notMem {value : ℕ} (h : value ∉ values) (place : ℕ)
    (table : List (Option ℕ)) :
    ((values.zipIdx place).foldl (fun table value => table.set value.1 (some value.2))
      table)[value]? = table[value]? := by
  induction values generalizing place table with
  | nil => rfl
  | cons first values ih =>
      rw [List.mem_cons, not_or] at h
      rw [List.zipIdx_cons, List.foldl_cons, ih h.2, List.getElem?_set_ne (Ne.symm h.1)]

theorem getElem?_noted (hnodup : values.Nodup) {table : List (Option ℕ)}
    (hsize : ∀ value ∈ values, value < table.length) {i value : ℕ} (h : values[i]? = some value)
    (place : ℕ) :
    ((values.zipIdx place).foldl (fun table value => table.set value.1 (some value.2))
      table)[value]? = some (some (place + i)) := by
  induction values generalizing place table i with
  | nil => cases h
  | cons first values ih =>
      obtain ⟨hfirst, hsize⟩ := List.forall_mem_cons.mp hsize
      obtain ⟨hnotMem, hnodup⟩ := List.nodup_cons.mp hnodup
      rw [List.zipIdx_cons, List.foldl_cons]
      cases i with
      | zero =>
          obtain rfl : first = value := Option.some.inj h
          rw [getElem?_noted_of_notMem hnotMem, List.getElem?_set_self hfirst]
          rfl
      | succ i =>
          have hplace : place + (i + 1) = place + 1 + i := by omega
          rw [hplace]
          apply ih hnodup _ h
          intro value hvalue
          rw [List.length_set]
          exact hsize value hvalue

/-- A value is found at its place, and nothing else is found. -/
theorem reverseTable_iff (hnodup : values.Nodup) (hsize : ∀ value ∈ values, value < size)
    {i value : ℕ} :
    (reverseTable size values)[value]?.join = some i ↔ values[i]? = some value := by
  have hlength : ∀ value ∈ values, value < (List.replicate size (none : Option ℕ)).length := by
    intro value hvalue
    rw [List.length_replicate]
    exact hsize value hvalue
  constructor
  · intro h
    by_cases hmem : value ∈ values
    · obtain ⟨j, hj⟩ := List.mem_iff_getElem?.mp hmem
      have hnoted := getElem?_noted hnodup hlength hj 0
      rw [reverseTable, hnoted, Nat.zero_add] at h
      obtain rfl : j = i := Option.some.inj h
      exact hj
    · rw [reverseTable, getElem?_noted_of_notMem hmem, List.getElem?_replicate] at h
      split at h <;> cases h
  · intro h
    rw [reverseTable, getElem?_noted hnodup hlength h 0, Nat.zero_add]
    rfl

end reverseTable

end Foundation
