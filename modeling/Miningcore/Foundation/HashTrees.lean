import Mathlib.Data.List.Basic
import Mathlib.Data.List.Induction
import Mathlib.Data.Nat.Bitwise

/-!
# Hash trees

A node of a tree hashes what its two children hash to. Trees of one shape that hash to
the same have the same leaves, unless two pairs of theirs collide. What a branch folds to
is the root only if it is the branch of the leaf it starts with, unless pairs collide.
-/

namespace Foundation

universe u v

inductive HashTree (α : Type u) where
  | leaf (a : α)
  | node (left right : HashTree α)

namespace HashTree

variable {α : Type u} {β : Type v}

def map (f : α → β) : HashTree α → HashTree β
  | leaf a => leaf (f a)
  | node left right => node (left.map f) (right.map f)

def leaves : HashTree α → List α
  | leaf a => [a]
  | node left right => left.leaves ++ right.leaves

/-- The leaf that a path leads to, `true` for the right. -/
def leafAt : HashTree α → (ℕ → Bool) → α
  | leaf a, _ => a
  | node left right, path =>
      if path 0 then right.leafAt fun n => path (n + 1) else left.leafAt fun n => path (n + 1)

variable (join : α → α → α)

def root : HashTree α → α
  | leaf a => a
  | node left right => join left.root right.root

/-- The pairs that are joined. -/
def pairs : HashTree α → List (α × α)
  | leaf _ => []
  | node left right => (left.root join, right.root join) :: (left.pairs ++ right.pairs)

/-- The siblings along a path, from the root on. -/
def branchAt : HashTree α → (ℕ → Bool) → List α
  | leaf _, _ => []
  | node left right, path =>
      if path 0 then left.root join :: right.branchAt fun n => path (n + 1)
      else right.root join :: left.branchAt fun n => path (n + 1)

/-- What a leaf and its siblings join to. -/
def foldBranch (a : α) : List α → (ℕ → Bool) → α
  | [], _ => a
  | sibling :: siblings, path =>
      let below := foldBranch a siblings fun n => path (n + 1)
      if path 0 then join sibling below else join below sibling

/-- The pairs that are joined on the way. -/
def branchPairs (a : α) : List α → (ℕ → Bool) → List (α × α)
  | [], _ => []
  | sibling :: siblings, path =>
      let below := foldBranch join a siblings fun n => path (n + 1)
      (if path 0 then (sibling, below) else (below, sibling)) ::
        branchPairs a siblings fun n => path (n + 1)

/-- Two different pairs among the given ones that join to the same. -/
def Collide (first second : List (α × α)) : Prop :=
  ∃ p ∈ first, ∃ q ∈ second, p ≠ q ∧ join p.1 p.2 = join q.1 q.2

variable {join}

theorem Collide.mono {first second first' second' : List (α × α)} (h : Collide join first second)
    (hfirst : first ⊆ first') (hsecond : second ⊆ second') : Collide join first' second' := by
  obtain ⟨p, hp, q, hq, hcollide⟩ := h
  exact ⟨p, hfirst hp, q, hsecond hq, hcollide⟩

/-- Pairs that join to the same are one pair or collide. -/
theorem eq_or_collide {a b a' b' : α} {first second : List (α × α)} (h : join a b = join a' b')
    (hfirst : (a, b) ∈ first) (hsecond : (a', b') ∈ second) :
    (a = a' ∧ b = b') ∨ Collide join first second := by
  by_cases heq : (a, b) = (a', b')
  · exact .inl (Prod.mk.inj heq)
  · exact .inr ⟨_, hfirst, _, hsecond, heq, h⟩

theorem foldBranch_branchAt (join : α → α → α) (t : HashTree α) (path : ℕ → Bool) :
    foldBranch join (t.leafAt path) (t.branchAt join path) path = t.root join := by
  induction t generalizing path with
  | leaf a => rfl
  | node left right ihl ihr =>
      rw [leafAt, branchAt, root]
      split
      · rename_i hright
        rw [foldBranch, ihr, if_pos hright]
      · rename_i hleft
        rw [foldBranch, ihl, if_neg hleft]

/-- The root tells the leaves of a tree of known shape. -/
theorem eq_or_collide_of_root {t t' : HashTree α}
    (hshape : t.map (fun _ => ()) = t'.map fun _ => ()) (h : t.root join = t'.root join) :
    t = t' ∨ Collide join (t.pairs join) (t'.pairs join) := by
  induction t generalizing t' with
  | leaf a =>
      cases t' with
      | leaf a' => exact .inl (congrArg leaf h)
      | node left' right' => cases hshape
  | node left right ihl ihr =>
      cases t' with
      | leaf a' => cases hshape
      | node left' right' =>
          obtain ⟨hleftShape, hrightShape⟩ := node.inj hshape
          obtain ⟨hleft, hright⟩ | hcollide := eq_or_collide h List.mem_cons_self
            (List.mem_cons_self (l := left'.pairs join ++ right'.pairs join))
          · obtain rfl | hcollide := ihl hleftShape hleft
            · obtain rfl | hcollide := ihr hrightShape hright
              · exact .inl rfl
              · refine .inr (hcollide.mono ?_ ?_)
                · exact List.Subset.trans (List.subset_append_right _ _) (List.subset_cons_self _ _)
                · exact List.Subset.trans (List.subset_append_right _ _) (List.subset_cons_self _ _)
            · refine .inr (hcollide.mono ?_ ?_)
              · exact List.Subset.trans (List.subset_append_left _ _) (List.subset_cons_self _ _)
              · exact List.Subset.trans (List.subset_append_left _ _) (List.subset_cons_self _ _)
          · exact .inr hcollide

/-- The root tells the leaf behind a path and its siblings. -/
theorem eq_or_collide_of_foldBranch {t : HashTree α} {a : α} {siblings : List α}
    {path : ℕ → Bool} (hlength : siblings.length = (t.branchAt join path).length)
    (h : foldBranch join a siblings path = t.root join) :
    (a = t.leafAt path ∧ siblings = t.branchAt join path) ∨
      Collide join (branchPairs join a siblings path) (t.pairs join) := by
  induction t generalizing a siblings path with
  | leaf b =>
      obtain rfl := List.eq_nil_of_length_eq_zero hlength
      exact .inl ⟨h, rfl⟩
  | node left right ihl ihr =>
      have hright : right.pairs join ⊆ (node left right).pairs join :=
        List.Subset.trans (List.subset_append_right _ _) (List.subset_cons_self _ _)
      have hleft : left.pairs join ⊆ (node left right).pairs join :=
        List.Subset.trans (List.subset_append_left _ _) (List.subset_cons_self _ _)
      cases siblings with
      | nil =>
          rw [branchAt] at hlength
          split at hlength
          · cases hlength
          · cases hlength
      | cons sibling siblings =>
          have hrest : branchPairs join a siblings (fun n => path (n + 1)) ⊆
              branchPairs join a (sibling :: siblings) path := List.subset_cons_self _ _
          rw [branchAt] at hlength
          rw [foldBranch, root] at h
          rw [leafAt, branchAt]
          split at h
          · rename_i hpath
            rw [if_pos hpath] at hlength
            rw [if_pos hpath, if_pos hpath]
            have hmem : (sibling, foldBranch join a siblings fun n => path (n + 1)) ∈
                branchPairs join a (sibling :: siblings) path := by
              rw [branchPairs, if_pos hpath]
              exact List.mem_cons_self
            obtain ⟨rfl, hbelow⟩ | hcollide := eq_or_collide h hmem
              (List.mem_cons_self (l := left.pairs join ++ right.pairs join))
            · obtain ⟨rfl, rfl⟩ | hcollide := ihr (Nat.succ.inj hlength) hbelow
              · exact .inl ⟨rfl, rfl⟩
              · exact .inr (hcollide.mono hrest hright)
            · exact .inr hcollide
          · rename_i hpath
            rw [if_neg hpath] at hlength
            rw [if_neg hpath, if_neg hpath]
            have hmem : (foldBranch join a siblings (fun n => path (n + 1)), sibling) ∈
                branchPairs join a (sibling :: siblings) path := by
              rw [branchPairs, if_neg hpath]
              exact List.mem_cons_self
            obtain ⟨hbelow, rfl⟩ | hcollide := eq_or_collide h hmem
              (List.mem_cons_self (l := left.pairs join ++ right.pairs join))
            · obtain ⟨rfl, rfl⟩ | hcollide := ihl (Nat.succ.inj hlength) hbelow
              · exact .inl ⟨rfl, rfl⟩
              · exact .inr (hcollide.mono hrest hleft)
            · exact .inr hcollide

end HashTree

/-! ### Levels -/

/-- The pairs of a list are joined; a last element without a partner is left out. -/
def pairUp {α : Type u} (join : α → α → α) : List α → List α
  | [] => []
  | [_] => []
  | a :: b :: rest => join a b :: pairUp join rest

section pairUp

variable {α : Type u} {β : Type v} {join : α → α → α}

theorem length_pairUp (l : List α) : (pairUp join l).length = l.length / 2 := by
  induction l using List.twoStepInduction with
  | nil => simp [pairUp]
  | singleton a => simp [pairUp]
  | cons_cons a b rest ih _ =>
      rw [pairUp, List.length_cons, ih, List.length_cons, List.length_cons]
      omega

/-- What keeps the joins keeps the levels. -/
theorem map_pairUp {join' : β → β → β} {f : α → β} (h : ∀ a b, f (join a b) = join' (f a) (f b))
    (l : List α) : (pairUp join l).map f = pairUp join' (l.map f) := by
  induction l using List.twoStepInduction with
  | nil => rfl
  | singleton a => rfl
  | cons_cons a b rest ih _ =>
      rw [pairUp, List.map_cons, h, ih, List.map_cons, List.map_cons, pairUp]

theorem take_pairUp (l : List α) (n : ℕ) :
    (pairUp join l).take n = pairUp join (l.take (2 * n)) := by
  induction n generalizing l with
  | zero => rw [Nat.mul_zero, List.take_zero, List.take_zero, pairUp]
  | succ n ih =>
      match l with
      | [] => rw [List.take_nil, pairUp, List.take_nil]
      | [a] => simp [pairUp, Nat.mul_succ]
      | a :: b :: rest =>
          rw [pairUp, List.take_succ_cons, ih, Nat.mul_succ, List.take_succ_cons,
            List.take_succ_cons, pairUp]

end pairUp

namespace HashTree

variable {α : Type u} {β : Type v}

theorem flatMap_leaves_pairUp {trees : List (HashTree α)} (h : trees.length % 2 = 0) :
    (pairUp node trees).flatMap leaves = trees.flatMap leaves := by
  induction trees using List.twoStepInduction with
  | nil => rfl
  | singleton a => cases h
  | cons_cons a b rest ih _ =>
      have hrest : rest.length % 2 = 0 := by
        simp only [List.length_cons] at h
        omega
      rw [pairUp, List.flatMap_cons, ih hrest, List.flatMap_cons, List.flatMap_cons, leaves,
        List.append_assoc]

/-- The tree over so many levels of trees. -/
def collapse : ℕ → List (HashTree α) → Option (HashTree α)
  | 0, trees => trees.head?
  | level + 1, trees => collapse level (pairUp node trees)

variable {level : ℕ} {trees : List (HashTree α)}

theorem exists_collapse (h : trees.length = 2 ^ level) :
    ∃ t, collapse level trees = some t ∧ t.leaves = trees.flatMap leaves := by
  induction level generalizing trees with
  | zero =>
      obtain ⟨t, rfl⟩ := List.length_eq_one_iff.mp h
      exact ⟨t, rfl, (List.append_nil _).symm⟩
  | succ level ih =>
      rw [Nat.pow_succ] at h
      have hhalf : (pairUp node trees).length = 2 ^ level := by
        rw [length_pairUp]
        omega
      obtain ⟨t, ht, hleaves⟩ := ih hhalf
      exact ⟨t, ht, hleaves.trans (flatMap_leaves_pairUp (by omega))⟩

theorem collapse_map (f : α → β) :
    collapse level (trees.map (map f)) = (collapse level trees).map (map f) := by
  induction level generalizing trees with
  | zero => rw [collapse, collapse, List.head?_map]
  | succ level ih => rw [collapse, collapse, ← ih, map_pairUp fun _ _ => rfl]

end HashTree

end Foundation
