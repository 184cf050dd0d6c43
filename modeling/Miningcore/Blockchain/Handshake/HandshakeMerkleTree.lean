import Miningcore.Crypto.MerkleTree

/-!
# The Merkle tree of Handshake

All nodes of the tree stand in one list, level behind level, from the leaves to the
root. A level is read by indices while the next one is added to the end.

## Implementation notes

The hasher is a function of bytes. `none` is an exception for an index.
-/

namespace Miningcore.Handshake.HandshakeMerkleTree

open Foundation

variable (digest : Bytes → Bytes)

def hashEmpty : Bytes := digest []

def hashLeaf (data : Bytes) : Bytes := digest (0 :: data)

def hashInternal (left right : Bytes) : Bytes := digest (1 :: left ++ right)

variable (sentinel : Bytes)

/-- The inner loop, from the index `j` on. -/
def addParents (i size j : ℕ) (nodes : List Bytes) : Option (List Bytes) :=
  if j < size then do
    let left ← nodes[i + j]?
    let right ← (if j + 1 < size then nodes[i + (j + 1)]? else some sentinel)
    addParents i size (j + 2) (nodes ++ [hashInternal digest left right])
  else some nodes
termination_by size - j

/-- The outer loop, for the level of a size that starts at `i`. -/
def addLevels (i size : ℕ) (nodes : List Bytes) : Option (List Bytes) :=
  if 1 < size then do
    let nodes ← addParents digest sentinel i size 0 nodes
    addLevels (i + size) ((size + 1) >>> 1) nodes
  else some nodes
termination_by size
decreasing_by
  simp only [Nat.shiftRight_eq_div_pow]
  omega

def createTree (leaves : List Bytes) : Option (List Bytes) :=
  let sentinel := hashEmpty digest
  let nodes := leaves.map (hashLeaf digest)
  if nodes.length = 0 then some (nodes ++ [sentinel])
  else addLevels digest sentinel 0 nodes.length nodes

/-- The last node, if there is one. -/
def createRoot (leaves : List Bytes) : Option (Option Bytes) :=
  (createTree digest leaves).map List.getLast?

section levels

variable {digest sentinel}

theorem getElem?_level {done level : List Bytes} (more : List Bytes) {i j : ℕ}
    (hdone : done.length = i) (hj : j < level.length) :
    (done ++ level ++ more)[i + j]? = level[j]? := by
  have hinside : i + j < (done ++ level).length := by
    rw [List.length_append, hdone]
    omega
  rw [List.getElem?_append_left hinside, List.getElem?_append_right (by omega), hdone,
    Nat.add_sub_cancel_left]

/-- The parents of the rest of a level stand behind what is there. -/
theorem addParents_eq {done level more : List Bytes} {i size : ℕ} (hdone : done.length = i)
    (hsize : level.length = size) (j : ℕ) :
    addParents digest sentinel i size j (done ++ level ++ more) =
      some (done ++ level ++
        (more ++ paddedLevel (hashInternal digest) sentinel (level.drop j))) := by
  rw [addParents]
  by_cases hj : j < size
  · have hleft : (done ++ level ++ more)[i + j]? = level[j]? :=
      getElem?_level more hdone (by omega)
    rw [if_pos hj, hleft, List.getElem?_eq_getElem (by omega)]
    by_cases hright : j + 1 < size
    · have hpair : level.drop j = level[j] :: level[j + 1] :: level.drop (j + 2) := by
        rw [List.drop_eq_getElem_cons (by omega), List.drop_eq_getElem_cons (by omega)]
      have hrest : addParents digest sentinel i size (j + 2)
          (done ++ level ++ (more ++ [hashInternal digest level[j] level[j + 1]])) = _ :=
        addParents_eq hdone hsize (j + 2)
      rw [if_pos hright, getElem?_level more hdone (by omega), List.getElem?_eq_getElem (by omega),
        hpair]
      simpa [paddedLevel] using hrest
    · have hlast : level.drop j = [level[j]] := by
        rw [List.drop_eq_getElem_cons (by omega), List.drop_eq_nil_of_le (by omega)]
      have hrest : addParents digest sentinel i size (j + 2)
          (done ++ level ++ (more ++ [hashInternal digest level[j] sentinel])) = _ :=
        addParents_eq hdone hsize (j + 2)
      rw [if_neg hright, hlast]
      rw [List.drop_eq_nil_of_le (by omega)] at hrest
      simpa [paddedLevel] using hrest
  · rw [if_neg hj, List.drop_eq_nil_of_le (by omega)]
    simp [paddedLevel]
termination_by size - j

/-- The last node is the root of the level that the loop starts with. -/
theorem getLast?_addLevels {done level : List Bytes} {i size : ℕ} (hdone : done.length = i)
    (hsize : level.length = size) (hlevel : level ≠ []) :
    (addLevels digest sentinel i size (done ++ level)).map List.getLast? =
      some (some (paddedRoot (hashInternal digest) sentinel level)) := by
  rw [addLevels]
  by_cases hmany : 1 < size
  · have hparents : addParents digest sentinel i size 0 (done ++ level ++ []) = _ :=
      addParents_eq hdone hsize 0
    have hsum : (done ++ level).length = i + size := by rw [List.length_append, hdone, hsize]
    have hnext := paddedLevel_ne_nil (hashInternal digest) sentinel hlevel
    have hlength : (paddedLevel (hashInternal digest) sentinel level).length =
        (size + 1) >>> 1 := by
      rw [length_paddedLevel, hsize, Nat.shiftRight_eq_div_pow]
    have hrest := getLast?_addLevels hsum hlength hnext
    rw [paddedRoot_paddedLevel _ _ (by omega)] at hrest
    rw [if_pos hmany, ← List.append_nil (done ++ level), hparents]
    exact hrest
  · obtain ⟨root, rfl⟩ : ∃ root, level = [root] := by
      apply List.length_eq_one_iff.mp
      have hpos := List.length_pos_of_ne_nil hlevel
      omega
    rw [if_neg hmany, paddedRoot, Option.map_some, List.getLast?_concat]
termination_by size
decreasing_by
  simp only [Nat.shiftRight_eq_div_pow]
  omega

end levels

/-- The tree ends with the root of the hashed leaves. -/
theorem createRoot_eq (digest : Bytes → Bytes) (leaves : List Bytes) :
    createRoot digest leaves =
      some (some (paddedRoot (hashInternal digest) (hashEmpty digest)
        (leaves.map (hashLeaf digest)))) := by
  rw [createRoot, createTree]
  cases leaves with
  | nil => simp [paddedRoot]
  | cons data leaves =>
      have hne : (data :: leaves).map (hashLeaf digest) ≠ [] := by simp
      rw [if_neg (by simp)]
      exact getLast?_addLevels List.length_nil rfl hne

end Miningcore.Handshake.HandshakeMerkleTree
