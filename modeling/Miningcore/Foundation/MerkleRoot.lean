import Mathlib.Data.List.Basic

/-!
# Merkle roots

A level of hashes is joined pairwise, the last hash with itself when it has no
partner. The root is what is left of the last level. The branch of the first
hash is what it is joined with, level by level. In a padded tree the partner that
is missing is a sentinel.
-/

namespace Foundation

variable {α : Type*} (join : α → α → α)

/-- The level above. -/
def nextLevel : List α → List α
  | [] => []
  | [a] => [join a a]
  | a :: b :: rest => join a b :: nextLevel rest

theorem length_nextLevel (level : List α) :
    (nextLevel join level).length = (level.length + 1) / 2 := by
  induction level using nextLevel.induct with
  | case1 => simp [nextLevel]
  | case2 a => simp [nextLevel]
  | case3 a b rest ih =>
      rw [nextLevel, List.length_cons, ih]
      simp only [List.length_cons]
      omega

/-- The root of a list of hashes, if there are any. -/
def merkleRoot : List α → Option α
  | [] => none
  | [root] => some root
  | a :: b :: rest => merkleRoot (nextLevel join (a :: b :: rest))
termination_by level => level.length
decreasing_by
  rw [length_nextLevel]
  simp only [List.length_cons]
  omega

/-- The branch of a hash in front of the given ones. -/
def merkleBranch : List α → List α
  | [] => []
  | second :: rest => second :: merkleBranch (nextLevel join rest)
termination_by rest => rest.length
decreasing_by
  rw [length_nextLevel, List.length_cons]
  omega

/-- Folding the branch of the first hash gives the root. -/
theorem merkleRoot_cons (first : α) (rest : List α) :
    merkleRoot join (first :: rest) = some ((merkleBranch join rest).foldl join first) := by
  induction rest using merkleBranch.induct join generalizing first with
  | case1 => rw [merkleRoot, merkleBranch, List.foldl_nil]
  | case2 second rest ih =>
      rw [merkleRoot, nextLevel, ih, merkleBranch, List.foldl_cons]

/-! ### Padded trees -/

variable (sentinel : α)

/-- The level above, with a sentinel in place of a missing partner. -/
def paddedLevel : List α → List α
  | [] => []
  | [a] => [join a sentinel]
  | a :: b :: rest => join a b :: paddedLevel rest

theorem length_paddedLevel (level : List α) :
    (paddedLevel join sentinel level).length = (level.length + 1) / 2 := by
  induction level using paddedLevel.induct with
  | case1 => simp [paddedLevel]
  | case2 a => simp [paddedLevel]
  | case3 a b rest ih =>
      simp only [paddedLevel, List.length_cons, ih]
      omega

theorem paddedLevel_ne_nil {level : List α} (h : level ≠ []) :
    paddedLevel join sentinel level ≠ [] := by
  apply List.ne_nil_of_length_pos
  have hlength := List.length_pos_of_ne_nil h
  rw [length_paddedLevel]
  omega

/-- The root of a list of hashes, the sentinel if there are none. -/
def paddedRoot : List α → α
  | [] => sentinel
  | [root] => root
  | a :: b :: rest => paddedRoot (paddedLevel join sentinel (a :: b :: rest))
termination_by level => level.length
decreasing_by
  simp only [length_paddedLevel, List.length_cons]
  omega

theorem paddedRoot_paddedLevel {level : List α} (h : 1 < level.length) :
    paddedRoot join sentinel (paddedLevel join sentinel level) =
      paddedRoot join sentinel level := by
  match level, h with
  | a :: b :: rest, _ => exact (paddedRoot.eq_3 join sentinel a b rest).symm

end Foundation
