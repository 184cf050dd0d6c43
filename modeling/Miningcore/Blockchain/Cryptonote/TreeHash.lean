import Mathlib.Data.Nat.Log
import Miningcore.Foundation.HashTrees

/-!
# Tree hashes

The hashes of a block are hashed in pairs, in one array that each level overwrites, after the
last of them were paired so that a power of two is left. The branch of the first hash is
computed by a second algorithm, and folded by a third.

## Implementation notes

What hashes two hashes one behind the other is a parameter. An array is the front of it
that was written. `none` is an assertion that fails or a place that was not written.

## Main results

* `treeHashFromBranch_treeBranch`
* `eq_or_collide_of_treeHashFromBranch`
-/

namespace Miningcore.Cryptonote

open Foundation HashTree

universe u

variable {α : Type u} (join : α → α → α)

/-! ## The algorithms -/

/-- The power of two that `tree_hash` leaves of the hashes. -/
def treeHashWidth (count : ℕ) : ℕ :=
  let cnt := [1, 2, 4, 8, 16, 32].foldl (fun cnt i => cnt ||| cnt >>> i) (count - 1)
  cnt &&& (2 ^ 64 - 1 - cnt >>> 1)

def depthStep (state : ℕ × ℕ) (i : ℕ) : ℕ × ℕ :=
  if 0 < state.1 >>> i then (state.1 >>> i, state.2 + i) else state

def treeDepth (count : ℕ) : ℕ := ([32, 16, 8, 4, 2, 1].foldl depthStep (count, 0)).2

def widthStep (count : ℕ) (state : ℕ × ℕ) (i : ℕ) : ℕ × ℕ :=
  if state.1 <<< i % 2 ^ 64 ≤ count then (state.1 <<< i % 2 ^ 64, state.2 + i) else state

/-- The power of two that `tree_branch` leaves of the hashes, with its exponent. -/
def treeBranchWidth (count : ℕ) : ℕ × ℕ := [32, 16, 8, 4, 2, 1].foldl (widthStep count) (1, 0)

/-- Writes to a place of an array. -/
def put (ints : List α) (j : ℕ) (hash : α) : Option (List α) :=
  if j ≤ ints.length then some (ints.take j ++ hash :: ints.drop (j + 1)) else none

/-- Pairs from the index `i` on are hashed to the places from `j` up to `cnt`. They are read from
the same array or another one. The index behind the last pair is told. -/
def hashPairs (source : List α → List α) (i j cnt : ℕ) (ints : List α) : Option (ℕ × List α) :=
  if j < cnt then
    match (source ints)[i]?, (source ints)[i + 1]? with
    | some a, some b => (put ints j (join a b)).bind (hashPairs source (i + 2) (j + 1) cnt)
    | _, _ => none
  else some (i, ints)
termination_by cnt - j

/-- The levels of `tree_hash`. -/
def hashLevels (cnt : ℕ) (ints : List α) : Option α :=
  if 2 < cnt then
    (hashPairs join id 0 0 (cnt >>> 1) ints).bind fun result => hashLevels (cnt >>> 1) result.2
  else
    match ints[0]?, ints[1]? with
    | some a, some b => some (join a b)
    | _, _ => none
termination_by cnt
decreasing_by
  rw [Nat.shiftRight_eq_div_pow]
  omega

def treeHash (hashes : List α) : Option α :=
  let count := hashes.length
  if count = 0 then none
  else if count = 1 then hashes[0]?
  else if count = 2 then
    match hashes[0]?, hashes[1]? with
    | some a, some b => some (join a b)
    | _, _ => none
  else
    let cnt := treeHashWidth count
    let ints := hashes.take (2 * cnt - count)
    (hashPairs join (fun _ => hashes) (2 * cnt - count) (2 * cnt - count) cnt ints).bind
      fun result => if result.1 = count then hashLevels join cnt result.2 else none

/-- The levels of `tree_branch`. -/
def branchLevels : (depth cnt : ℕ) → (ints branch : List α) → Option (List α)
  | 0, _, _, branch => some branch
  | depth + 1, cnt, ints, branch =>
      if cnt = 1 <<< (depth + 1) then
        match ints[0]? with
        | none => none
        | some sibling =>
            (hashPairs join id 1 0 (cnt >>> 1 - 1) ints).bind fun result =>
              branchLevels depth (cnt >>> 1) result.2 (sibling :: branch)
      else none

def treeBranch (hashes : List α) : Option (List α) :=
  let count := hashes.length
  if count = 0 then none
  else
    let cnt := (treeBranchWidth count).1
    let depth := (treeBranchWidth count).2
    if cnt = 1 <<< depth ∧ depth = treeDepth count then
      let ints := (hashes.drop 1).take (2 * cnt - count - 1)
      (hashPairs join (fun _ => hashes) (2 * cnt - count) (2 * cnt - count - 1) (cnt - 1) ints).bind
        fun result => if result.1 = count then branchLevels join depth cnt result.2 [] else none
    else none

/-- A bit of the path, if there is one. -/
def pathBit (path : Option (List UInt8)) (depth : ℕ) : Bool :=
  path.elim false fun bytes => (bytes.getD (depth >>> 3) 0).toNat &&& (1 <<< (depth &&& 7)) ≠ 0

/-- The two places of the buffer, which is empty at the leaf. -/
def branchBuffer (branch : List α) (leaf : α) (path : Option (List UInt8)) :
    ℕ → Option (α × α) → Option (Option (α × α))
  | 0, buffer => some buffer
  | depth + 1, buffer =>
      match branch[depth]? with
      | none => none
      | some sibling =>
          let below := buffer.elim leaf fun pair => join pair.1 pair.2
          branchBuffer branch leaf path depth
            (some (if pathBit path depth then (sibling, below) else (below, sibling)))

def treeHashFromBranch (branch : List α) (depth : ℕ) (leaf : α) (path : Option (List UInt8)) :
    Option α :=
  if depth = 0 then some leaf
  else (branchBuffer join branch leaf path depth none).bind fun buffer =>
    buffer.map fun pair => join pair.1 pair.2

/-! ## Powers of two -/

/-- The bits of a number are smeared over so many places below. -/
def IsSmeared (width x y : ℕ) : Prop :=
  ∀ i, y.testBit i ↔ ∃ k < width, x.testBit (i + k)

theorem isSmeared_one (x : ℕ) : IsSmeared 1 x x := by
  intro i
  simp

theorem IsSmeared.double {width x y : ℕ} (h : IsSmeared width x y) :
    IsSmeared (width + width) x (y ||| y >>> width) := by
  intro i
  rw [Nat.testBit_or, Bool.or_eq_true, Nat.testBit_shiftRight, h i, h (width + i)]
  constructor
  · rintro (⟨k, hk, hbit⟩ | ⟨k, hk, hbit⟩)
    · exact ⟨k, by omega, hbit⟩
    · exact ⟨width + k, by omega, by rwa [← Nat.add_assoc, Nat.add_comm i]⟩
  · rintro ⟨k, hk, hbit⟩
    obtain hlt | hle := Nat.lt_or_ge k width
    · exact .inl ⟨k, hlt, hbit⟩
    · refine .inr ⟨k - width, by omega, ?_⟩
      rwa [show width + i + (k - width) = i + k by omega]

theorem testBit_smeared {x y : ℕ} (h : IsSmeared 64 x y) (hpos : 0 < x) (hlt : x < 2 ^ 64) (i : ℕ) :
    y.testBit i = decide (i ≤ x.log2) := by
  rw [Bool.eq_iff_iff, decide_eq_true_eq, h i]
  have hlog : x.log2 < 64 := (Nat.log2_lt hpos.ne').mpr hlt
  constructor
  · rintro ⟨k, -, hbit⟩
    have hle := Nat.ge_two_pow_of_testBit hbit
    have hlog := (Nat.le_log2 hpos.ne').mpr hle
    omega
  · intro hle
    refine ⟨x.log2 - i, by omega, ?_⟩
    rw [Nat.add_sub_cancel' hle]
    exact Nat.testBit_log2 hpos.ne'

/-- The highest bit is left of a smeared number. -/
theorem and_not_smeared {x y : ℕ} (h : IsSmeared 64 x y) (hpos : 0 < x) (hlt : x < 2 ^ 64) :
    y &&& (2 ^ 64 - 1 - y >>> 1) = 2 ^ x.log2 := by
  have hbits := testBit_smeared h hpos hlt
  have hlog : x.log2 < 64 := (Nat.log2_lt hpos.ne').mpr hlt
  have hy : y < 2 ^ 64 := by
    apply Nat.lt_pow_two_of_testBit
    intro i hi
    rw [hbits i]
    exact decide_eq_false (by omega)
  have hshift : y >>> 1 < 2 ^ 64 := (Nat.shiftRight_le y 1).trans_lt hy
  apply Nat.eq_of_testBit_eq
  intro i
  rw [Nat.sub_sub, Nat.add_comm 1, Nat.testBit_and, Nat.testBit_two_pow_sub_succ hshift,
    Nat.testBit_shiftRight, hbits, hbits, Nat.testBit_two_pow, Bool.eq_iff_iff]
  simp only [Bool.and_eq_true, Bool.not_eq_true', decide_eq_true_eq, decide_eq_false_iff_not]
  omega

/-- The highest bit below the number of hashes is left. -/
theorem treeHashWidth_eq {count : ℕ} (h : 1 < count) (hlt : count < 2 ^ 64) :
    treeHashWidth count = 2 ^ (count - 1).log2 :=
  and_not_smeared (isSmeared_one (count - 1)).double.double.double.double.double.double
    (by omega) (by omega)

theorem depthStep_spec {state : ℕ × ℕ} {i : ℕ} (hpos : 0 < state.1)
    (hlt : state.1 < 2 ^ (i + i)) :
    0 < (depthStep state i).1 ∧ (depthStep state i).1 < 2 ^ i ∧
      (depthStep state i).2 + (depthStep state i).1.log2 = state.2 + state.1.log2 := by
  rw [depthStep, Nat.shiftRight_eq_div_pow]
  split
  · rename_i hdiv
    have hle : 2 ^ i ≤ state.1 := (Nat.div_pos_iff.mp hdiv).2
    have hlog : i ≤ state.1.log2 := (Nat.le_log2 hpos.ne').mpr hle
    refine ⟨hdiv, Nat.div_lt_of_lt_mul (by rwa [← Nat.pow_add]), ?_⟩
    rw [Nat.log2_eq_log_two, Nat.log_div_base_pow, ← Nat.log2_eq_log_two]
    omega
  · rename_i hdiv
    refine ⟨hpos, ?_, rfl⟩
    by_contra hge
    exact hdiv (Nat.div_pos (Nat.le_of_not_lt hge) (Nat.two_pow_pos i))

theorem treeDepth_eq {count : ℕ} (hpos : 0 < count) (hlt : count < 2 ^ 64) :
    treeDepth count = count.log2 := by
  have hpos64 : 0 < (count, 0).1 := hpos
  have hlt64 : (count, 0).1 < 2 ^ (32 + 32) := hlt
  obtain ⟨h32, hlt32, hlog32⟩ := depthStep_spec hpos64 hlt64
  obtain ⟨h16, hlt16, hlog16⟩ := depthStep_spec (i := 16) h32 hlt32
  obtain ⟨h8, hlt8, hlog8⟩ := depthStep_spec (i := 8) h16 hlt16
  obtain ⟨h4, hlt4, hlog4⟩ := depthStep_spec (i := 4) h8 hlt8
  obtain ⟨h2, hlt2, hlog2⟩ := depthStep_spec (i := 2) h4 hlt4
  obtain ⟨h1, hlt1, hlog1⟩ := depthStep_spec (i := 1) h2 hlt2
  rw [treeDepth]
  simp only [List.foldl_cons, List.foldl_nil]
  generalize depthStep _ 1 = final at h1 hlt1 hlog1 ⊢
  have hone : final.1 = 1 := by omega
  rw [hone] at hlog1
  exact (hlog1.trans (hlog2.trans (hlog4.trans (hlog8.trans (hlog16.trans hlog32))))).trans
    (Nat.zero_add _)

/-- The width is a power of two, not too large and large enough for the steps that are left. -/
structure IsWidth (count i : ℕ) (state : ℕ × ℕ) : Prop where
  eq_pow : state.1 = 2 ^ state.2
  le : 2 ^ state.2 ≤ count
  lt : count < 2 ^ (state.2 + i)
  bound : state.2 + i ≤ 64

theorem IsWidth.step {count i : ℕ} {state : ℕ × ℕ} (h : IsWidth count (i + i) state)
    (hi : 0 < i) : IsWidth count i (widthStep count state i) := by
  have hbound := h.bound
  have hshift : state.1 <<< i % 2 ^ 64 = 2 ^ (state.2 + i) := by
    rw [h.eq_pow, Nat.shiftLeft_eq, ← Nat.pow_add]
    exact Nat.mod_eq_of_lt (Nat.pow_lt_pow_right (by decide) (by omega))
  rw [widthStep, hshift]
  split
  · rename_i hle
    refine ⟨rfl, hle, ?_, ?_⟩
    · rw [Nat.add_assoc]
      exact h.lt
    · dsimp only
      omega
  · rename_i hgt
    exact ⟨h.eq_pow, h.le, Nat.lt_of_not_le hgt, by omega⟩

theorem treeBranchWidth_eq {count : ℕ} (hpos : 0 < count) (hlt : count < 2 ^ 64) :
    treeBranchWidth count = (2 ^ count.log2, count.log2) := by
  have h64 : IsWidth count (32 + 32) (1, 0) := ⟨rfl, hpos, hlt, le_rfl⟩
  have h32 := h64.step (by decide)
  have h16 := IsWidth.step (i := 16) h32 (by decide)
  have h8 := IsWidth.step (i := 8) h16 (by decide)
  have h4 := IsWidth.step (i := 4) h8 (by decide)
  have h2 := IsWidth.step (i := 2) h4 (by decide)
  have h1 := IsWidth.step (i := 1) h2 (by decide)
  rw [treeBranchWidth]
  simp only [List.foldl_cons, List.foldl_nil]
  generalize widthStep count _ 1 = final at h1 ⊢
  have hlog : final.2 = count.log2 := ((Nat.log2_eq_iff hpos.ne').mpr ⟨h1.le, h1.lt⟩).symm
  rw [← hlog]
  exact Prod.ext h1.eq_pow rfl

variable {join}

/-! ## Levels -/

/-- What is written in front of a place does not change what is read from it on. -/
def KeepsReads (source : List α → List α) : Prop :=
  ∀ (ints : List α) (hash : α) (i j : ℕ), j ≤ ints.length → j < i →
    (source (ints.take j ++ hash :: ints.drop (j + 1))).drop i = (source ints).drop i

theorem keepsReads_const (hashes : List α) : KeepsReads fun _ => hashes :=
  fun _ _ _ _ _ _ => rfl

theorem keepsReads_id : KeepsReads (id : List α → List α) := by
  intro ints hash i j hj hlt
  obtain ⟨n, rfl⟩ := Nat.exists_eq_add_of_lt hlt
  have hfront := (List.length_take_le j ints).trans hlt.le
  rw [id_eq, id_eq, List.drop_append, List.drop_eq_nil_of_le hfront,
    List.nil_append, List.length_take, min_eq_left hj, Nat.add_assoc, Nat.add_sub_cancel_left,
    List.drop_succ_cons, List.drop_drop, Nat.add_right_comm, Nat.add_assoc]

theorem exists_hashPairs (join : α → α → α) {source : List α → List α}
    (hsource : KeepsReads source) {i j : ℕ} (cnt : ℕ) (ints : List α) (hji : j ≤ i)
    (hj : j ≤ ints.length) (hcnt : j ≤ cnt)
    (hread : 2 * (cnt - j) ≤ ((source ints).drop i).length) :
    ∃ ints', hashPairs join source i j cnt ints = some (i + 2 * (cnt - j), ints') ∧
      ints'.take cnt = ints.take j ++ (pairUp join ((source ints).drop i)).take (cnt - j) ∧
      cnt ≤ ints'.length := by
  induction hn : cnt - j generalizing i j ints with
  | zero =>
      have heq : cnt = j := by omega
      rw [hashPairs, if_neg (by omega), List.take_zero, List.append_nil, heq]
      exact ⟨ints, rfl, rfl, hj⟩
  | succ n ih =>
      have hsplit : ∃ a b, (source ints).drop i = a :: b :: (source ints).drop (i + 2) := by
        rw [← List.drop_drop]
        match (source ints).drop i, hread with
        | [], hread => simp at hread; omega
        | [_], hread => simp at hread; omega
        | a :: b :: rest, _ => exact ⟨a, b, rfl⟩
      obtain ⟨a, b, hab⟩ := hsplit
      have ha : (source ints)[i]? = some a := by
        rw [← List.head?_drop, hab, List.head?_cons]
      have hb : (source ints)[i + 1]? = some b := by
        rw [← List.head?_drop, ← List.drop_drop, hab]
        rfl
      have hwritten : j + 1 ≤ (ints.take j ++ join a b :: ints.drop (j + 1)).length := by
        rw [List.length_append, List.length_take, min_eq_left hj, List.length_cons]
        omega
      have hlength : ((source ints).drop i).length = ((source ints).drop (i + 2)).length + 2 :=
        congrArg List.length hab
      have hput : put ints j (join a b) = some (ints.take j ++ join a b :: ints.drop (j + 1)) :=
        if_pos hj
      have hkept := hsource ints (join a b) (i + 2) j hj (by omega)
      have htake : (ints.take j ++ join a b :: ints.drop (j + 1)).take (j + 1) =
          ints.take j ++ [join a b] := by
        rw [List.take_append, List.length_take, min_eq_left hj, List.take_of_length_le
          (by rw [List.length_take, min_eq_left hj]; omega), Nat.add_sub_cancel_left]
        rfl
      obtain ⟨ints', hrun, hfront, hlength⟩ := @ih (i + 2) (j + 1)
        (ints.take j ++ join a b :: ints.drop (j + 1)) (by omega) (by omega) (by omega)
        (by rw [hkept]; omega) (by omega)
      refine ⟨ints', ?_, ?_, hlength⟩
      · rw [hashPairs, if_pos (by omega), ha, hb]
        dsimp only
        rw [hput, Option.bind_some, hrun, show i + 2 + 2 * n = i + 2 * (n + 1) by omega]
      · rw [hfront, htake, hkept, hab, pairUp, List.take_succ_cons, List.append_assoc,
          List.singleton_append]

theorem map_root_pairUp (trees : List (HashTree α)) :
    (pairUp node trees).map (root join) = pairUp join (trees.map (root join)) :=
  map_pairUp (fun _ _ => rfl) trees

/-- The levels of `tree_hash` are those of the trees above. -/
theorem hashLevels_eq {level : ℕ} {ints : List α} {trees : List (HashTree α)}
    (hlength : trees.length = 2 ^ (level + 1))
    (hints : ints.take (2 ^ (level + 1)) = trees.map (root join)) :
    hashLevels join (2 ^ (level + 1)) ints = (collapse (level + 1) trees).map (root join) := by
  induction level generalizing ints trees with
  | zero =>
      match trees, hlength with
      | [t, s], _ =>
          match ints, hints with
          | a :: b :: rest, hints =>
              obtain ⟨rfl, hb⟩ := List.cons.inj hints
              obtain ⟨rfl, -⟩ := List.cons.inj hb
              rw [hashLevels, if_neg (by decide)]
              rfl
  | succ level ih =>
      have hpos := Nat.two_pow_pos level
      have hhalf : 2 ^ (level + 1 + 1) >>> 1 = 2 ^ (level + 1) := by
        rw [Nat.shiftRight_eq_div_pow, Nat.pow_succ 2 (level + 1)]
        omega
      have hwidth : 2 ^ (level + 1 + 1) ≤ ints.length := by
        rw [← hlength, ← List.length_map (root join), ← hints]
        exact List.length_take_le' _ _
      obtain ⟨ints', hrun, hfront, -⟩ := exists_hashPairs join keepsReads_id (2 ^ (level + 1)) ints
        le_rfl (Nat.zero_le ints.length) (Nat.zero_le _) (by
          rw [id_eq, List.drop_zero, Nat.sub_zero, ← Nat.pow_succ']
          exact hwidth)
      rw [List.take_zero, List.nil_append, Nat.sub_zero, id_eq, List.drop_zero, take_pairUp,
        ← Nat.pow_succ', hints, ← map_root_pairUp] at hfront
      rw [hashLevels, if_pos (by rw [Nat.pow_succ, Nat.pow_succ]; omega), hhalf, hrun,
        Option.bind_some, ih _ hfront]
      · rfl
      · rw [length_pairUp, hlength, Nat.pow_succ]
        omega

/-- The levels of `tree_branch` are those of the trees above. -/
theorem branchLevels_eq {level : ℕ} {ints : List α} {t : HashTree α} {trees : List (HashTree α)}
    (hlength : trees.length + 1 = 2 ^ level)
    (hints : ints.take (2 ^ level - 1) = trees.map (root join)) :
    branchLevels join level (2 ^ level) ints (t.branchAt join fun _ => false) =
      (collapse level (t :: trees)).map fun top => top.branchAt join fun _ => false := by
  induction level generalizing ints t trees with
  | zero => rfl
  | succ level ih =>
      have hpos := Nat.two_pow_pos level
      rw [Nat.pow_succ] at hlength
      have hhalf : 2 ^ (level + 1) >>> 1 = 2 ^ level := by
        rw [Nat.shiftRight_eq_div_pow, Nat.pow_succ]
        omega
      match trees, hlength with
      | [], hlength =>
          rw [List.length_nil] at hlength
          omega
      | s :: rest, hlength =>
          rw [List.length_cons] at hlength
          have hsecond : 2 ^ (level + 1) - 1 = 2 * (2 ^ level - 1) + 1 := by
            rw [Nat.pow_succ]
            omega
          rw [hsecond] at hints
          obtain ⟨a, below, rfl⟩ := List.exists_cons_of_ne_nil (l := ints) (by
            rintro rfl
            cases hints)
          obtain ⟨rfl, hbelow⟩ := List.cons.inj hints
          have hwidth : 2 * (2 ^ level - 1) ≤ below.length := by
            have hcount := congrArg List.length hbelow
            rw [List.length_take, List.length_map] at hcount
            omega
          obtain ⟨ints', hrun, hfront, -⟩ := exists_hashPairs join keepsReads_id (2 ^ level - 1)
            (root join s :: below) (Nat.zero_le 1) (Nat.zero_le _)
            (Nat.zero_le _) hwidth
          rw [List.take_zero, List.nil_append, Nat.sub_zero, id_eq, List.drop_one, List.tail_cons,
            take_pairUp, hbelow, ← map_root_pairUp] at hfront
          rw [branchLevels, if_pos (Nat.one_shiftLeft (level + 1)).symm, hhalf,
            List.getElem?_cons_zero]
          dsimp only
          rw [hrun, Option.bind_some]
          exact ih (t := node t s) (by rw [length_pairUp]; omega) hfront

/-! ## The tree -/

/-- So many trees that the hashes are left of them after the last ones were paired. -/
def forest (cnt : ℕ) (hashes : List α) : List (HashTree α) :=
  (hashes.take (2 * cnt - hashes.length)).map leaf ++
    pairUp node ((hashes.drop (2 * cnt - hashes.length)).map leaf)

/-- The tree of the hashes of a block. -/
def hashTree (hashes : List α) : Option (HashTree α) :=
  collapse hashes.length.log2 (forest (2 ^ hashes.length.log2) hashes)

theorem length_forest {cnt : ℕ} {hashes : List α} (hle : cnt ≤ hashes.length)
    (hge : hashes.length ≤ 2 * cnt) : (forest cnt hashes).length = cnt := by
  rw [forest, List.length_append, List.length_map, List.length_take, length_pairUp,
    List.length_map, List.length_drop]
  omega

theorem flatMap_leaves_forest {cnt : ℕ} {hashes : List α} (hge : hashes.length ≤ 2 * cnt) :
    (forest cnt hashes).flatMap leaves = hashes := by
  have hleaves (l : List α) : (l.map leaf).flatMap leaves = l := by
    rw [List.flatMap_map]
    exact List.flatMap_singleton' l
  rw [forest, List.flatMap_append, flatMap_leaves_pairUp, hleaves, hleaves, List.take_append_drop]
  rw [List.length_map, List.length_drop]
  omega

theorem map_root_forest (join : α → α → α) (cnt : ℕ) (hashes : List α) :
    (forest cnt hashes).map (root join) =
      hashes.take (2 * cnt - hashes.length) ++
        pairUp join (hashes.drop (2 * cnt - hashes.length)) := by
  have hroots (l : List α) : (l.map leaf).map (root join) = l := by
    rw [List.map_map]
    exact List.map_id l
  rw [forest, List.map_append, map_root_pairUp, hroots, hroots]

theorem forest_map {β : Type*} (f : α → β) (cnt : ℕ) (hashes : List α) :
    forest cnt (hashes.map f) = (forest cnt hashes).map (map f) := by
  have hnode : ∀ a b, map f (node a b) = node (map f a) (map f b) := fun _ _ => rfl
  simp only [forest, List.length_map, List.map_append, ← List.map_take, ← List.map_drop,
    map_pairUp hnode, List.map_map]
  rfl

/-- The first hash has no partner yet. -/
theorem forest_cons {cnt skipped : ℕ} {first : α} {rest : List α}
    (h : 2 * cnt - (first :: rest).length = skipped + 1) :
    forest cnt (first :: rest) = leaf first :: ((rest.take skipped).map leaf ++
      pairUp node ((rest.drop skipped).map leaf)) := by
  rw [forest, h]
  rfl

theorem log2_bounds {count : ℕ} (hpos : 0 < count) :
    2 ^ count.log2 ≤ count ∧ count < 2 * 2 ^ count.log2 := by
  rw [← Nat.pow_succ']
  exact (Nat.log2_eq_iff hpos.ne').mp rfl

/-- A power of two of hashes has the same tree, whether all of them are paired first or none. -/
theorem collapse_forest {level : ℕ} {hashes : List α} (hlt : 2 ^ level < hashes.length)
    (hle : hashes.length ≤ 2 ^ (level + 1)) :
    collapse level (forest (2 ^ level) hashes) = hashTree hashes := by
  obtain heq | hlt' := hle.eq_or_lt
  · have hlog : hashes.length.log2 = level + 1 := by rw [heq, Nat.log2_two_pow]
    have hall : 2 * 2 ^ (level + 1) - hashes.length = hashes.length := by omega
    have hnone : 2 * 2 ^ level - hashes.length = 0 := by
      rw [heq, Nat.pow_succ]
      omega
    rw [hashTree, hlog, forest, forest, hall, hnone, List.take_zero, List.drop_zero,
      List.take_length, List.drop_length, collapse]
    rw [List.map_nil, pairUp, List.append_nil, List.nil_append]
  · have hlog : hashes.length.log2 = level :=
      (Nat.log2_eq_iff (by omega)).mpr ⟨hlt.le, hlt'⟩
    rw [hashTree, hlog]

theorem treeHash_eq {hashes : List α} (hne : hashes ≠ []) (hlt : hashes.length < 2 ^ 64) :
    treeHash join hashes = (hashTree hashes).map (root join) := by
  have hpos := List.length_pos_iff.mpr hne
  obtain hsmall | hlarge := Nat.lt_or_ge hashes.length 3
  · match hashes, hsmall with
    | [a], _ => rfl
    | [a, b], _ =>
        have hlog : Nat.log2 2 = 1 := by decide
        rw [hashTree, List.length_cons, List.length_singleton, hlog]
        rfl
  · have hwidth := treeHashWidth_eq (by omega : 1 < hashes.length) hlt
    obtain ⟨level, hlevel⟩ : ∃ level, (hashes.length - 1).log2 = level + 1 := by
      have hlog : 1 ≤ (hashes.length - 1).log2 := (Nat.le_log2 (by omega)).mpr (by omega)
      exact ⟨_, (Nat.sub_add_cancel hlog).symm⟩
    obtain ⟨hle, hgt⟩ := (Nat.log2_eq_iff (by omega)).mp hlevel
    rw [Nat.pow_succ _ (level + 1)] at hgt
    have hfront : (hashes.take (2 * 2 ^ (level + 1) - hashes.length)).length =
        2 * 2 ^ (level + 1) - hashes.length := by
      rw [List.length_take]
      omega
    obtain ⟨ints, hrun, hints, -⟩ := exists_hashPairs join (keepsReads_const hashes)
      (2 ^ (level + 1)) (hashes.take (2 * 2 ^ (level + 1) - hashes.length)) le_rfl
      hfront.ge (by omega) (by rw [List.length_drop]; omega)
    have hpaired : (pairUp join (hashes.drop (2 * 2 ^ (level + 1) - hashes.length))).take
        (2 ^ (level + 1) - (2 * 2 ^ (level + 1) - hashes.length)) =
          pairUp join (hashes.drop (2 * 2 ^ (level + 1) - hashes.length)) := by
      apply List.take_of_length_le
      rw [length_pairUp, List.length_drop]
      omega
    rw [hpaired, List.take_of_length_le hfront.le, ← map_root_forest] at hints
    rw [treeHash, if_neg (by omega), if_neg (by omega), if_neg (by omega), hwidth, hlevel]
    dsimp only
    rw [hrun, Option.bind_some, if_pos (by omega),
      hashLevels_eq (length_forest (by omega) (by omega)) hints,
      collapse_forest (by omega) (by rw [Nat.pow_succ _ (level + 1)]; omega)]

theorem treeBranch_eq {hashes : List α} (hne : hashes ≠ []) (hlt : hashes.length < 2 ^ 64) :
    treeBranch join hashes =
      (hashTree hashes).map fun top => top.branchAt join fun _ => false := by
  have hpos := List.length_pos_iff.mpr hne
  obtain ⟨hle, hgt⟩ := log2_bounds hpos
  have hwidth := treeBranchWidth_eq hpos hlt
  have hdepth := treeDepth_eq hpos hlt
  rw [hashTree]
  generalize hashes.length.log2 = level at hle hgt hwidth hdepth ⊢
  obtain ⟨skipped, hskipped⟩ : ∃ skipped, 2 * 2 ^ level - hashes.length = skipped + 1 :=
    ⟨2 * 2 ^ level - hashes.length - 1, by omega⟩
  have hcopied : ((hashes.drop 1).take skipped).length = skipped := by
    rw [List.length_take, List.length_drop]
    omega
  obtain ⟨ints, hrun, hints, -⟩ := exists_hashPairs join (keepsReads_const hashes)
    (2 ^ level - 1) ((hashes.drop 1).take skipped) (Nat.le_add_right skipped 1)
    hcopied.ge (by omega) (by rw [List.length_drop]; omega)
  have hpaired : (pairUp join (hashes.drop (skipped + 1))).take (2 ^ level - 1 - skipped) =
      pairUp join (hashes.drop (skipped + 1)) := by
    apply List.take_of_length_le
    rw [length_pairUp, List.length_drop]
    omega
  rw [hpaired, List.take_of_length_le hcopied.le] at hints
  obtain ⟨first, rest, rfl⟩ := List.exists_cons_of_ne_nil hne
  have hlength := length_forest hle hgt.le
  have hroots := map_root_forest join (2 ^ level) (first :: rest)
  rw [forest_cons hskipped] at hlength hroots
  rw [hskipped] at hroots
  rw [treeBranch, if_neg hpos.ne', hwidth, forest_cons hskipped]
  dsimp only
  rw [if_pos ⟨(Nat.one_shiftLeft level).symm, hdepth.symm⟩, hskipped, Nat.add_sub_cancel, hrun,
    Option.bind_some, if_pos (by omega)]
  refine branchLevels_eq (t := leaf first) hlength ?_
  rw [hints]
  exact (List.cons.inj hroots).2.symm

theorem exists_hashTree {hashes : List α} (hne : hashes ≠ []) :
    ∃ top, hashTree hashes = some top ∧ top.leaves = hashes := by
  have hpos := List.length_pos_iff.mpr hne
  obtain ⟨hle, hgt⟩ := log2_bounds hpos
  obtain ⟨top, htop, hleaves⟩ := exists_collapse (length_forest hle hgt.le)
  exact ⟨top, htop, hleaves.trans (flatMap_leaves_forest hgt.le)⟩

/-- As many hashes have a tree of the same shape. -/
theorem hashTree_shape {hashes hashes' : List α} (h : hashes.length = hashes'.length) :
    (hashTree hashes).map (map fun _ => ()) = (hashTree hashes').map (map fun _ => ()) := by
  have hunits : hashes.map (fun _ => ()) = hashes'.map fun _ => () := by
    rw [List.map_const', List.map_const', h]
  rw [hashTree, hashTree, ← collapse_map, ← collapse_map, ← forest_map, ← forest_map, hunits, h]

/-- The pairs that are hashed for a root. -/
def hashedPairs (join : α → α → α) (hashes : List α) : List (α × α) :=
  (hashTree hashes).elim [] (pairs join)

/-- As many hashes with the same root are the same, unless two different pairs of theirs hash to
the same. -/
theorem eq_or_collide_of_roots {hashes hashes' : List α}
    (hlength : hashes.length = hashes'.length) (hne : hashes ≠ []) (hlt : hashes.length < 2 ^ 64)
    (h : treeHash join hashes = treeHash join hashes') :
    hashes = hashes' ∨ Collide join (hashedPairs join hashes) (hashedPairs join hashes') := by
  have hne' : hashes' ≠ [] := List.length_pos_iff.mp (hlength ▸ List.length_pos_iff.mpr hne)
  obtain ⟨top, htop, hleaves⟩ := exists_hashTree hne
  obtain ⟨top', htop', hleaves'⟩ := exists_hashTree hne'
  have hshape := hashTree_shape hlength
  rw [htop, htop'] at hshape
  rw [treeHash_eq hne hlt, treeHash_eq hne' (hlength ▸ hlt), htop, htop'] at h
  rw [hashedPairs, hashedPairs, htop, htop', ← hleaves, ← hleaves']
  obtain rfl | hcollide := eq_or_collide_of_root (Option.some.inj hshape) (Option.some.inj h)
  · exact .inl rfl
  · exact .inr hcollide

/-! ## Branches -/

theorem branchBuffer_eq {branch : List α} {leaf : α} {path : Option (List UInt8)} {depth : ℕ}
    {buffer : Option (α × α)} (hle : depth ≤ branch.length)
    (hbuffer : buffer.elim leaf (fun pair => join pair.1 pair.2) =
      foldBranch join leaf (branch.drop depth) fun n => pathBit path (depth + n)) :
    (branchBuffer join branch leaf path depth buffer).map
        (fun buffer => buffer.elim leaf fun pair => join pair.1 pair.2) =
      some (foldBranch join leaf branch (pathBit path)) := by
  induction depth generalizing buffer with
  | zero =>
      rw [List.drop_zero] at hbuffer
      rw [branchBuffer, Option.map_some, hbuffer]
      simp only [Nat.zero_add]
  | succ depth ih =>
      have hlt : depth < branch.length := hle
      rw [branchBuffer, List.getElem?_eq_getElem hlt]
      dsimp only
      apply ih hlt.le
      rw [hbuffer, List.drop_eq_getElem_cons hlt, foldBranch, Option.elim_some]
      simp only [Nat.add_zero, Nat.add_assoc, Nat.add_comm 1]
      split
      · rfl
      · rfl

theorem isSome_of_branchBuffer {branch : List α} {leaf : α} {path : Option (List UInt8)}
    {depth : ℕ} {pair : α × α} {buffer : Option (α × α)}
    (h : branchBuffer join branch leaf path depth (some pair) = some buffer) : buffer.isSome := by
  induction depth generalizing pair with
  | zero =>
      cases h
      rfl
  | succ depth ih =>
      rw [branchBuffer] at h
      split at h
      · cases h
      · exact ih h

/-- The branch is folded from the leaf on. -/
theorem treeHashFromBranch_eq (branch : List α) (leaf : α) (path : Option (List UInt8)) :
    treeHashFromBranch join branch branch.length leaf path =
      some (foldBranch join leaf branch (pathBit path)) := by
  rw [treeHashFromBranch]
  split
  · rename_i hzero
    rw [List.eq_nil_of_length_eq_zero hzero, foldBranch]
  · rename_i hpos
    obtain ⟨depth, hdepth⟩ := Nat.exists_eq_succ_of_ne_zero hpos
    have hfold : (branchBuffer join branch leaf path branch.length none).map
        (fun buffer => buffer.elim leaf fun pair => join pair.1 pair.2) =
          some (foldBranch join leaf branch (pathBit path)) := by
      apply branchBuffer_eq le_rfl
      rw [List.drop_length, foldBranch, Option.elim_none]
    obtain ⟨buffer, hbuffer, hvalue⟩ := Option.map_eq_some_iff.mp hfold
    have hsome : buffer.isSome := by
      rw [hdepth, branchBuffer] at hbuffer
      split at hbuffer
      · cases hbuffer
      · exact isSome_of_branchBuffer hbuffer
    obtain ⟨pair, rfl⟩ := Option.isSome_iff_exists.mp hsome
    rw [hbuffer, Option.bind_some, Option.map_some, ← hvalue, Option.elim_some]

/-- The branch has a sibling for each level that the first hash is below the root. -/
theorem length_branch_collapse {level : ℕ} {t top : HashTree α} {trees : List (HashTree α)}
    (hlength : trees.length + 1 = 2 ^ level) (h : collapse level (t :: trees) = some top) :
    (top.branchAt join fun _ => false).length =
      level + (t.branchAt join fun _ => false).length ∧
        top.leafAt (fun _ => false) = t.leafAt fun _ => false := by
  induction level generalizing t trees with
  | zero =>
      obtain rfl := Option.some.inj h
      exact ⟨(Nat.zero_add _).symm, rfl⟩
  | succ level ih =>
      have hpos := Nat.two_pow_pos level
      rw [Nat.pow_succ] at hlength
      match trees, hlength with
      | [], hlength =>
          rw [List.length_nil] at hlength
          omega
      | s :: rest, hlength =>
          rw [List.length_cons] at hlength
          have hhalf : (pairUp node rest).length + 1 = 2 ^ level := by
            rw [length_pairUp]
            omega
          obtain ⟨hbranch, hleaf⟩ := ih (t := node t s) hhalf h
          refine ⟨?_, hleaf⟩
          rw [hbranch, branchAt, if_neg Bool.false_ne_true, List.length_cons]
          omega

theorem of_hashTree (join : α → α → α) {first : α} {rest : List α} {top : HashTree α}
    (hlt : rest.length + 1 < 2 ^ 64) (h : hashTree (first :: rest) = some top) :
    (top.branchAt join fun _ => false).length = treeDepth (rest.length + 1) ∧
      top.leafAt (fun _ => false) = first := by
  have hpos : 0 < (first :: rest).length := Nat.succ_pos _
  obtain ⟨hle, hgt⟩ := log2_bounds hpos
  rw [treeDepth_eq (Nat.succ_pos _) hlt]
  rw [hashTree] at h
  change _ = (first :: rest).length.log2 ∧ _
  generalize (first :: rest).length.log2 = level at hle hgt h ⊢
  obtain ⟨skipped, hskipped⟩ : ∃ skipped, 2 * 2 ^ level - (first :: rest).length = skipped + 1 :=
    ⟨2 * 2 ^ level - (first :: rest).length - 1, by omega⟩
  have hlength := length_forest hle hgt.le
  rw [forest_cons hskipped] at hlength h
  exact length_branch_collapse hlength h

/-- The branch of the first hash folds to the root of all of them. -/
theorem treeHashFromBranch_treeBranch (join : α → α → α) (first : α) (rest : List α)
    (hlt : rest.length + 1 < 2 ^ 64) :
    ∃ branch root, treeBranch join (first :: rest) = some branch ∧
      branch.length = treeDepth (rest.length + 1) ∧
      treeHash join (first :: rest) = some root ∧
      treeHashFromBranch join branch (treeDepth (rest.length + 1)) first none = some root := by
  have hne : first :: rest ≠ [] := List.cons_ne_nil first rest
  obtain ⟨top, htop, -⟩ := exists_hashTree hne
  obtain ⟨hlength, hleaf⟩ := of_hashTree join hlt htop
  refine ⟨top.branchAt join fun _ => false, top.root join, ?_, hlength, ?_, ?_⟩
  · rw [treeBranch_eq hne hlt, htop, Option.map_some]
  · rw [treeHash_eq hne hlt, htop, Option.map_some]
  · rw [← hlength, treeHashFromBranch_eq]
    have hfold := foldBranch_branchAt join top fun _ => false
    rw [hleaf] at hfold
    exact congrArg some hfold

theorem treeHashFromBranch_treeBranch_fiveHashes :
    ∃ branch root, treeBranch (fun a b => 10 * a + b) [1, 2, 3, 4, 5] = some branch ∧
      branch.length = 2 ∧ treeHash (fun a b => 10 * a + b) [1, 2, 3, 4, 5] = some root ∧
      treeHashFromBranch (fun a b => 10 * a + b) branch 2 1 none = some root :=
  treeHashFromBranch_treeBranch (fun a b => 10 * a + b) 1 [2, 3, 4, 5] (by decide)

/-- What is proved by a branch is the first hash, and the branch is its own, unless two different
pairs hash to the same. -/
theorem eq_or_collide_of_treeHashFromBranch (join : α → α → α) (first : α) (rest : List α)
    (hlt : rest.length + 1 < 2 ^ 64) (leaf : α) (branch : List α)
    (hlength : branch.length = treeDepth (rest.length + 1))
    (h : treeHashFromBranch join branch (treeDepth (rest.length + 1)) leaf none =
      treeHash join (first :: rest)) :
    (leaf = first ∧ treeBranch join (first :: rest) = some branch) ∨
      Collide join (branchPairs join leaf branch fun _ => false)
        (hashedPairs join (first :: rest)) := by
  have hne : first :: rest ≠ [] := List.cons_ne_nil first rest
  obtain ⟨top, htop, -⟩ := exists_hashTree hne
  obtain ⟨hbranch, hleaf⟩ := of_hashTree join hlt htop
  rw [← hlength, treeHashFromBranch_eq, treeHash_eq hne hlt, htop, Option.map_some] at h
  rw [treeBranch_eq hne hlt, hashedPairs, htop, ← hleaf]
  obtain ⟨rfl, rfl⟩ | hcollide :=
    eq_or_collide_of_foldBranch (hlength.trans hbranch.symm) (Option.some.inj h)
  · exact .inl ⟨rfl, rfl⟩
  · exact .inr hcollide

theorem eq_or_collide_of_treeHashFromBranch_threeHashes :
    (1 = 1 ∧ treeBranch (fun a b => 10 * a + b) [1, 2, 3] = some [23]) ∨
      Collide (fun a b => 10 * a + b) (branchPairs (fun a b => 10 * a + b) 1 [23] fun _ => false)
        (hashedPairs (fun a b => 10 * a + b) [1, 2, 3]) :=
  eq_or_collide_of_treeHashFromBranch (fun a b => 10 * a + b) 1 [2, 3] (by decide) 1 [23]
    (by decide) (by
      rw [treeHash_eq (by simp) (by decide)]
      rfl)

end Miningcore.Cryptonote
