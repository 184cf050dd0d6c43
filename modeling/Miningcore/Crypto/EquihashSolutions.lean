import Mathlib.Data.List.Nodup
import Miningcore.Crypto.EquihashArrays
import Miningcore.Foundation.ByteFormats
import Miningcore.Foundation.PairReduction

/-!
# Equihash solutions

The verifier joins rows in pairs, a row for each index at first, and each pair has to
collide in the next group of bits. What it accepts are the solutions of the
generalised birthday problem, in one order only.

## Implementation notes

The hash function is a parameter. A row is split where its hash ends, and what the
fixed width of its array leaves over is left out, as are the lines of the log.

## Main results

* `verify_iff`
* `subsingleton_accepted`
-/

namespace Miningcore.EquihashSolver

open Foundation

/-- Parameters of the algorithm whose groups of bits fill the hash and the solution. -/
structure Parameters where
  n : Nat
  k : Nat
  n_le : n ≤ 512
  n_bytes : 8 ∣ n
  groups : (k + 1) * (n / (k + 1)) = n
  eight_le : 8 ≤ n / (k + 1)
  lt_index : n / (k + 1) + 1 ≤ 25
  solution_bytes : 8 ∣ 2 ^ k * (n / (k + 1) + 1)

namespace Parameters

variable (p : Parameters)

def indicesPerHashOutput : Nat := 512 / p.n

def hashOutput : Nat := p.indicesPerHashOutput * p.n / 8

def collisionBitLength : Nat := p.n / (p.k + 1)

def collisionByteLength : Nat := (p.collisionBitLength + 7) / 8

def solutionWidth : Nat := 2 ^ p.k * (p.collisionBitLength + 1) / 8

theorem eight_le_collisionBitLength : 8 ≤ p.collisionBitLength := p.eight_le

theorem eight_mul_solutionWidth :
    8 * p.solutionWidth = (p.collisionBitLength + 1) * 2 ^ p.k := by
  rw [solutionWidth, collisionBitLength, Nat.mul_div_cancel' p.solution_bytes, Nat.mul_comm]

end Parameters

def eh200_9 : Parameters :=
  ⟨200, 9, by decide, by decide, by decide, by decide, by decide, by decide⟩

def eh144_5 : Parameters :=
  ⟨144, 5, by decide, by decide, by decide, by decide, by decide, by decide⟩

def eh96_5 : Parameters :=
  ⟨96, 5, by decide, by decide, by decide, by decide, by decide, by decide⟩

structure FullStepRow where
  hash : List UInt8
  indices : List UInt8

namespace FullStepRow

def hasCollision (a b : FullStepRow) (l : Nat) : Bool := a.hash.take l == b.hash.take l

def indicesBefore (a b : FullStepRow) : Bool := a.indices < b.indices

/-- The bytes of the indices, one after another. -/
def indexArrays (a : FullStepRow) : List (List UInt8) :=
  (List.range ((a.indices.length + indexSize - 1) / indexSize)).map fun i =>
    (a.indices.drop (i * indexSize)).take indexSize

def distinctIndices (a b : FullStepRow) : Bool :=
  a.indexArrays.all fun i => b.indexArrays.all fun j => i != j

/-- The row of two rows, `trim` bytes shorter. -/
def merge (a b : FullStepRow) (trim : Nat) : FullStepRow where
  hash := (List.zipWith (· ^^^ ·) a.hash b.hash).drop trim
  indices := if a.indicesBefore b then a.indices ++ b.indices else b.indices ++ a.indices

def isZero (a : FullStepRow) : Bool := a.hash.all (· == 0)

end FullStepRow

section Verifier

variable (p : Parameters)

def joinRows (a b : FullStepRow) : Option FullStepRow :=
  if !a.hasCollision b p.collisionByteLength then none
  else if b.indicesBefore a then none
  else if !a.distinctIndices b then none
  else some (a.merge b p.collisionByteLength)

variable (generateHash : Nat → Vector UInt8 p.hashOutput)

/-- The bytes of the hash output that belong to an index. -/
def hashOf (i : Nat) : List UInt8 :=
  ((generateHash (i / p.indicesPerHashOutput)).toList.drop
    (i % p.indicesPerHashOutput * p.n / 8)).take (p.n / 8)

def stepRow (i : Nat) : FullStepRow where
  hash := expandArray p.collisionBitLength 0 (hashOf p generateHash i)
  indices := ehIndexToArray i

def isValidSolution (soln : List UInt8) : Bool :=
  if soln.length ≠ p.solutionWidth then false
  else
    let x := (getIndicesFromMinimal soln p.collisionBitLength).map (stepRow p generateHash)
    match reduce (fun _ => joinRows p) 0 x with
    | none => false
    | some row => row.isZero

end Verifier

/-- An exported verifier: its parameters and the size it compares with. -/
structure Solver where
  parameters : Parameters
  solutionSize : Nat
  size_eq : solutionSize = parameters.solutionWidth

def equihash_200_9 : Solver := ⟨eh200_9, 1344, by decide⟩

def equihash_144_5 : Solver := ⟨eh144_5, 100, by decide⟩

def equihash_96_5 : Solver := ⟨eh96_5, 68, by decide⟩

/-- The characters `ZcashPoW`. -/
def defaultPersonalization : List UInt8 := [90, 99, 97, 115, 104, 80, 111, 87]

section Exports

variable (blake2b : (hLen : Nat) → (personalization message : List UInt8) → Vector UInt8 hLen)

/-- `EhInitialiseState`, the update with the header and `GenerateHash`. -/
def generateHash (p : Parameters) (personalization : Option (List UInt8)) (header : List UInt8)
    (g : Nat) : Vector UInt8 p.hashOutput :=
  blake2b p.hashOutput
    ((personalization.getD defaultPersonalization).take 8 ++ bytesOf 4 p.n ++ bytesOf 4 p.k)
    (header ++ bytesOf 4 g)

def Solver.verify (s : Solver) (personalization : Option (List UInt8))
    (header solution : List UInt8) : Bool :=
  if header.length ≠ 140 then false
  else if solution.length ≠ s.solutionSize then false
  else isValidSolution s.parameters (generateHash blake2b s.parameters personalization header)
    solution

end Exports

/-! ## Solutions of the generalised birthday problem -/

section Problem

variable (p : Parameters) (generateHash : Nat → Vector UInt8 p.hashOutput)

/-- The number of `n` bits an index stands for. -/
def digest (i : Nat) : Nat := bigEndianValue (hashOf p generateHash i)

def xorSum (indices : List Nat) : Nat :=
  (indices.map (digest p generateHash)).foldr (· ^^^ ·) 0

/-- The sum of `2 ^ r` indices starts with `r` groups of zeros. -/
def Collides (indices : List Nat) : Prop :=
  ∀ r, indices.length = 2 ^ r →
    xorSum p generateHash indices < 2 ^ (p.collisionBitLength * (p.k + 1 - r))

/-- The indices below every node collide, its first half before the second, no index occurs
twice, and the sum of all of them is zero. -/
structure IsSolution (indices : List Nat) : Prop where
  length : indices.length = 2 ^ p.k
  nodup : indices.Nodup
  ordered : AllBlocks HalvesOrdered p.k indices
  collides : AllBlocks (Collides p generateHash) p.k indices
  sum_eq_zero : xorSum p generateHash indices = 0

end Problem

/-! ## Rows -/

section Rows

variable (p : Parameters) (generateHash : Nat → Vector UInt8 p.hashOutput)

/-- The row that the indices below a node of height `r` are joined to. -/
def rowOf (r : Nat) (indices : List Nat) : FullStepRow where
  hash := (digits p.collisionBitLength (p.k + 1 - r) (xorSum p generateHash indices)).flatMap
    (elementOf p.collisionBitLength 0)
  indices := indices.flatMap ehIndexToArray

variable {p generateHash}

theorem xorSum_append (l l' : List Nat) :
    xorSum p generateHash (l ++ l') = xorSum p generateHash l ^^^ xorSum p generateHash l' := by
  induction l with
  | nil => exact (Nat.zero_xor _).symm
  | cons i l ih =>
      change digest p generateHash i ^^^ xorSum p generateHash (l ++ l') = _
      rw [ih, ← Nat.xor_assoc]
      rfl

theorem length_hashOf (i : Nat) : (hashOf p generateHash i).length = p.n / 8 := by
  have hbytes : 8 * (p.n / 8) = p.n := Nat.mul_div_cancel' p.n_bytes
  have hoffset : ∀ x, x * p.n / 8 = x * (p.n / 8) := fun x => Nat.mul_div_assoc x p.n_bytes
  have hpos : 0 < p.n := by
    have height := p.eight_le
    have hle := Nat.div_le_self p.n (p.k + 1)
    omega
  have hlt : i % p.indicesPerHashOutput < p.indicesPerHashOutput := by
    apply Nat.mod_lt
    exact Nat.div_pos p.n_le hpos
  have hend : (i % p.indicesPerHashOutput + 1) * (p.n / 8) ≤
      p.indicesPerHashOutput * (p.n / 8) := Nat.mul_le_mul_right _ hlt
  rw [hashOf, List.length_take, List.length_drop, Vector.length_toList, Parameters.hashOutput,
    hoffset, hoffset, Nat.min_eq_left]
  rw [Nat.add_one_mul] at hend
  exact Nat.le_sub_of_add_le' hend

theorem digest_lt (i : Nat) :
    digest p generateHash i < 2 ^ (p.collisionBitLength * (p.k + 1)) := by
  have hspec := (bigEndianValue_spec (hashOf p generateHash i)).1
  rwa [length_hashOf, Nat.mul_div_cancel' p.n_bytes, ← p.groups, Nat.mul_comm] at hspec

theorem xorSum_singleton (i : Nat) : xorSum p generateHash [i] = digest p generateHash i :=
  Nat.xor_zero _

theorem collides_singleton (i : Nat) : Collides p generateHash [i] := by
  intro r hr
  have hzero : r = 0 := by
    rcases Nat.eq_zero_or_pos r with h | h
    · exact h
    · exact absurd hr (Nat.one_lt_two_pow h.ne').ne
  rw [hzero, xorSum_singleton]
  exact digest_lt i

theorem stepRow_eq (i : Nat) : stepRow p generateHash i = rowOf p generateHash 0 [i] := by
  have hlength : 8 * (hashOf p generateHash i).length = p.collisionBitLength * (p.k + 1) := by
    rw [length_hashOf, Nat.mul_div_cancel' p.n_bytes, Nat.mul_comm]
    exact p.groups.symm
  have hmax : p.collisionBitLength ≤ 25 := Nat.le_of_succ_le p.lt_index
  rw [stepRow, rowOf, expandArray_eq p.eight_le_collisionBitLength hmax hlength, xorSum_singleton]
  simp [digest]

/-! ### Comparing rows -/

theorem elementOf_inj {a b : Nat} (ha : a < 2 ^ p.collisionBitLength)
    (hb : b < 2 ^ p.collisionBitLength) :
    elementOf p.collisionBitLength 0 a = elementOf p.collisionBitLength 0 b ↔ a = b := by
  constructor
  · intro h
    exact bigEndian_injective (lt_of_lt_bitLen ha) (lt_of_lt_bitLen hb) h
  · exact congrArg _

/-- The first groups of two sums decide whether another group of their sum is zero. -/
theorem xor_lt_iff {width m a b : Nat} (ha : a < 2 ^ (width * (m + 1)))
    (hb : b < 2 ^ (width * (m + 1))) :
    a ^^^ b < 2 ^ (width * m) ↔
      a >>> (width * m) % 2 ^ width = b >>> (width * m) % 2 ^ width := by
  have hhigh : ∀ {x}, x < 2 ^ (width * (m + 1)) → x >>> (width * m) % 2 ^ width =
      x >>> (width * m) := by
    intro x hx
    apply Nat.mod_eq_of_lt
    rw [Nat.shiftRight_eq_div_pow]
    apply Nat.div_lt_of_lt_mul
    rwa [← pow_add, ← Nat.mul_succ]
  rw [hhigh ha, hhigh hb, ← Nat.xor_eq_zero_iff, ← Nat.shiftRight_xor_distrib,
    Nat.shiftRight_eq_div_pow, Nat.div_eq_zero_iff]
  simp

theorem digits_succ (width m n : Nat) :
    digits width (m + 1) n = n >>> (width * m) % 2 ^ width :: digits width m n := rfl

theorem hasCollision_rowOf {r : Nat} (hr : r < p.k) {l l' : List Nat} (hl : l.length = 2 ^ r)
    (hl' : l'.length = 2 ^ r) (hc : Collides p generateHash l) (hc' : Collides p generateHash l') :
    (rowOf p generateHash r l).hasCollision (rowOf p generateHash r l') p.collisionByteLength =
        true ↔
      Collides p generateHash (l ++ l') := by
  obtain ⟨m, hm⟩ : ∃ m, p.k + 1 - r = m + 1 := ⟨p.k - r, by omega⟩
  have hlength : (l ++ l').length = 2 ^ (r + 1) := by
    rw [List.length_append, hl, hl', Nat.pow_succ]
    ring
  have hcollides : Collides p generateHash (l ++ l') ↔
      xorSum p generateHash (l ++ l') < 2 ^ (p.collisionBitLength * m) := by
    have hnext : p.k + 1 - (r + 1) = m := by omega
    constructor
    · intro h
      have hlt := h (r + 1) hlength
      rwa [hnext] at hlt
    · intro h s hs
      obtain rfl := Nat.pow_right_injective le_rfl (hlength.symm.trans hs)
      rwa [hnext]
  have hlt := hc r hl
  have hlt' := hc' r hl'
  rw [hm] at hlt hlt'
  have hfirst : ∀ n rest, (elementOf p.collisionBitLength 0 n ++ rest).take
      p.collisionByteLength = elementOf p.collisionBitLength 0 n := by
    intro n rest
    exact List.take_left' (length_elementOf n)
  rw [hcollides, xorSum_append, xor_lt_iff hlt hlt', FullStepRow.hasCollision, rowOf, rowOf, hm,
    beq_iff_eq]
  simp only [digits_succ, List.flatMap_cons]
  rw [hfirst, hfirst, elementOf_inj (Nat.mod_lt _ (Nat.two_pow_pos _))
    (Nat.mod_lt _ (Nat.two_pow_pos _))]

theorem zipWith_xor_digits (m a b : Nat) :
    List.zipWith (· ^^^ ·)
      ((digits p.collisionBitLength m a).flatMap (elementOf p.collisionBitLength 0))
      ((digits p.collisionBitLength m b).flatMap (elementOf p.collisionBitLength 0)) =
    (digits p.collisionBitLength m (a ^^^ b)).flatMap (elementOf p.collisionBitLength 0) := by
  induction m with
  | zero => rfl
  | succ m ih =>
      have hlength : ∀ x y, (elementOf p.collisionBitLength 0 x).length =
          (elementOf p.collisionBitLength 0 y).length := by
        intro x y
        rw [length_elementOf, length_elementOf]
      simp only [digits_succ, List.flatMap_cons]
      rw [List.zipWith_append (hlength _ _), ih, Nat.shiftRight_xor_distrib, Nat.xor_mod_two_pow]
      congr 1
      exact bigEndian_xor _ _ _

/-! ### The indices of rows -/

theorem length_ehIndexToArray (i : Nat) : (ehIndexToArray i).length = indexSize :=
  length_bigEndian _ _

theorem ehIndexToArray_inj {i j : Nat} (hi : i < 2 ^ 32) (hj : j < 2 ^ 32) :
    ehIndexToArray i = ehIndexToArray j ↔ i = j := by
  constructor
  · exact bigEndian_injective hi hj
  · exact congrArg _

theorem length_flatMap_ehIndexToArray (l : List Nat) :
    (l.flatMap ehIndexToArray).length = l.length * indexSize := by
  induction l with
  | nil => rfl
  | cons i l ih =>
      rw [List.flatMap_cons, List.length_append, ih, length_ehIndexToArray, List.length_cons]
      ring

theorem indexArrays_rowOf (r : Nat) (l : List Nat) :
    (rowOf p generateHash r l).indexArrays = l.map ehIndexToArray := by
  have hcount : (l.length * indexSize + indexSize - 1) / indexSize = l.length := by
    rw [indexSize]
    omega
  rw [FullStepRow.indexArrays, rowOf, length_flatMap_ehIndexToArray, hcount]
  clear hcount
  dsimp only
  induction l with
  | nil => rfl
  | cons i l ih =>
      rw [List.length_cons, List.range_succ_eq_map, List.map_cons, List.map_map, List.map_cons,
        ← ih, List.flatMap_cons, Nat.zero_mul, List.drop_zero,
        List.take_left' (length_ehIndexToArray i)]
      congr 1
      apply List.map_congr_left
      intro j _
      have hskip : j.succ * indexSize = (ehIndexToArray i).length + j * indexSize := by
        rw [length_ehIndexToArray, Nat.succ_mul, Nat.add_comm]
      rw [Function.comp_apply, hskip, List.drop_append, List.drop_eq_nil_of_le
        (Nat.le_add_right _ _), List.nil_append, Nat.add_sub_cancel_left]

variable (generateHash) in
theorem distinctIndices_rowOf {r : Nat} {l l' : List Nat} (hlt : ∀ i ∈ l, i < 2 ^ 32)
    (hlt' : ∀ i ∈ l', i < 2 ^ 32) :
    (rowOf p generateHash r l).distinctIndices (rowOf p generateHash r l') = true ↔
      l.Disjoint l' := by
  rw [FullStepRow.distinctIndices, indexArrays_rowOf, indexArrays_rowOf]
  simp only [List.all_map, List.all_eq_true, Function.comp_apply, bne_iff_ne, ne_eq]
  constructor
  · intro h i hi hi'
    exact h i hi i hi' rfl
  · intro h i hi j hj hij
    obtain rfl := (ehIndexToArray_inj (hlt i hi) (hlt' j hj)).mp hij
    exact h hi hj

variable (generateHash) in
/-- Rows without common indices are ordered like the lists of their indices. -/
theorem indicesBefore_rowOf {r : Nat} {l l' : List Nat} (hl : l.length = 2 ^ r)
    (hl' : l'.length = 2 ^ r) (hlt : ∀ i ∈ l, i < 2 ^ 32) (hlt' : ∀ i ∈ l', i < 2 ^ 32)
    (hdisjoint : l.Disjoint l') :
    (rowOf p generateHash r l).indicesBefore (rowOf p generateHash r l') = true ↔ l < l' := by
  have hpos := Nat.two_pow_pos r
  match l, l' with
  | [], _ => exact absurd hl hpos.ne
  | _ :: _, [] => exact absurd hl' hpos.ne
  | i :: l, j :: l' =>
      have hne : i ≠ j := by
        rintro rfl
        exact hdisjoint List.mem_cons_self List.mem_cons_self
      rw [FullStepRow.indicesBefore, decide_eq_true_iff, rowOf, rowOf, List.flatMap_cons,
        List.flatMap_cons, lt_iff_of_head_ne hne]
      exact bigEndian_append_lt_iff (hlt i List.mem_cons_self) (hlt' j List.mem_cons_self) hne _ _

/-! ### Joining rows -/

variable (generateHash) in
theorem merge_rowOf {r : Nat} (hr : r < p.k) {l l' : List Nat} (hl : l.length = 2 ^ r)
    (hl' : l'.length = 2 ^ r) (hlt : ∀ i ∈ l, i < 2 ^ 32) (hlt' : ∀ i ∈ l', i < 2 ^ 32)
    (hdisjoint : l.Disjoint l') (hordered : l < l') :
    (rowOf p generateHash r l).merge (rowOf p generateHash r l') p.collisionByteLength =
      rowOf p generateHash (r + 1) (l ++ l') := by
  obtain ⟨m, hm⟩ : ∃ m, p.k + 1 - r = m + 1 := ⟨p.k - r, by omega⟩
  have hnext : p.k + 1 - (r + 1) = m := by omega
  have hbefore := (indicesBefore_rowOf generateHash hl hl' hlt hlt' hdisjoint).mpr hordered
  rw [FullStepRow.merge, if_pos hbefore]
  simp only [rowOf]
  have htrim : (elementOf p.collisionBitLength 0 (xorSum p generateHash (l ++ l') >>>
      (p.collisionBitLength * m) % 2 ^ p.collisionBitLength)).length = p.collisionByteLength :=
    length_elementOf _
  rw [zipWith_xor_digits, ← xorSum_append, hm, hnext, digits_succ, List.flatMap_cons,
    List.flatMap_append, List.drop_left' htrim]

theorem joinRows_rowOf {r : Nat} (hr : r < p.k) {l l' : List Nat} (hl : l.length = 2 ^ r)
    (hl' : l'.length = 2 ^ r) (hlt : ∀ i ∈ l, i < 2 ^ 32) (hlt' : ∀ i ∈ l', i < 2 ^ 32)
    (hc : Collides p generateHash l) (hc' : Collides p generateHash l') {row : FullStepRow} :
    joinRows p (rowOf p generateHash r l) (rowOf p generateHash r l') = some row ↔
      (Collides p generateHash (l ++ l') ∧ l.Disjoint l' ∧ l < l') ∧
        row = rowOf p generateHash (r + 1) (l ++ l') := by
  have hcollision := hasCollision_rowOf hr hl hl' hc hc'
  have hdistinct := distinctIndices_rowOf generateHash (r := r) hlt hlt'
  by_cases hsum : Collides p generateHash (l ++ l')
  · by_cases hdisjoint : l.Disjoint l'
    · have hbefore := indicesBefore_rowOf generateHash hl' hl hlt' hlt
        (List.disjoint_symm hdisjoint)
      have hne : l ≠ l' := by
        rintro rfl
        match l with
        | [] => exact absurd hl (Nat.two_pow_pos r).ne
        | _ :: _ => exact hdisjoint List.mem_cons_self List.mem_cons_self
      by_cases hordered : l' < l
      · have hnot : ¬ l < l' := lt_asymm hordered
        simp [joinRows, hcollision.mpr hsum, hbefore.mpr hordered, hnot]
      · have hlt'' : l < l' := lt_of_le_of_ne (not_lt.mp hordered) hne
        have hmerge := merge_rowOf generateHash hr hl hl' hlt hlt' hdisjoint hlt''
        have hnot := Bool.eq_false_iff.mpr (mt hbefore.mp hordered)
        simp only [joinRows, hcollision.mpr hsum, hdistinct.mpr hdisjoint, hmerge, hnot, hsum,
          hdisjoint, hlt'', Bool.not_true, Bool.false_eq_true, if_false, Option.some_inj, true_and,
          and_self]
        exact eq_comm
    · have hnot := Bool.eq_false_iff.mpr (mt hdistinct.mp hdisjoint)
      simp [joinRows, hnot, hdisjoint]
  · have hnot := Bool.eq_false_iff.mpr (mt hcollision.mp hsum)
    simp [joinRows, hnot, hsum]

variable (generateHash) in
/-- The rows of indices are joined to one row exactly if these fulfil the conditions at every
node of their tree. -/
theorem reduce_stepRow {r : Nat} (hr : r ≤ p.k) {l : List Nat} (hl : l.length = 2 ^ r)
    (hlt : ∀ i ∈ l, i < 2 ^ 32) {row : FullStepRow} :
    reduce (fun _ => joinRows p) 0 (l.map (stepRow p generateHash)) = some row ↔
      (l.Nodup ∧ AllBlocks HalvesOrdered r l ∧ AllBlocks (Collides p generateHash) r l) ∧
        row = rowOf p generateHash r l := by
  induction r generalizing l row with
  | zero =>
      obtain ⟨i, rfl⟩ := List.length_eq_one_iff.mp hl
      rw [allBlocks_zero hl, allBlocks_zero hl, List.map_singleton, reduce_singleton,
        Option.some_inj, stepRow_eq]
      simp only [List.nodup_singleton, halvesOrdered_singleton, collides_singleton, true_and]
      exact eq_comm
  | succ r ih =>
      obtain ⟨l, l', rfl, hl, hl'⟩ := exists_halves hl
      rw [List.forall_mem_append] at hlt
      have hmap : ∀ {l : List Nat}, l.length = 2 ^ r →
          (l.map (stepRow p generateHash)).length = 2 ^ r := by
        intro l hl
        rw [List.length_map, hl]
      rw [List.map_append, reduce_append (hmap hl) (hmap hl'), allBlocks_append hl hl',
        allBlocks_append hl hl', halvesOrdered_append (hl.trans hl'.symm), List.nodup_append']
      simp only [Option.bind_eq_some_iff, ih (Nat.le_of_succ_le hr) hl hlt.1,
        ih (Nat.le_of_succ_le hr) hl' hlt.2]
      constructor
      · rintro ⟨_, ⟨⟨hnodup, hordered, hcollides⟩, rfl⟩, _, ⟨⟨hnodup', hordered', hcollides'⟩, rfl⟩,
          hjoin⟩
        have hself := hcollides.self hl
        have hself' := hcollides'.self hl'
        obtain ⟨⟨hsum, hdisjoint, hbefore⟩, hrow⟩ :=
          (joinRows_rowOf hr hl hl' hlt.1 hlt.2 hself hself').mp hjoin
        exact ⟨⟨⟨hnodup, hnodup', hdisjoint⟩, ⟨hbefore, hordered, hordered'⟩,
          hsum, hcollides, hcollides'⟩, hrow⟩
      · rintro ⟨⟨⟨hnodup, hnodup', hdisjoint⟩, ⟨hbefore, hordered, hordered'⟩, hsum, hcollides,
          hcollides'⟩, hrow⟩
        have hself := hcollides.self hl
        have hself' := hcollides'.self hl'
        exact ⟨_, ⟨⟨hnodup, hordered, hcollides⟩, rfl⟩, _, ⟨⟨hnodup', hordered', hcollides'⟩, rfl⟩,
          (joinRows_rowOf hr hl hl' hlt.1 hlt.2 hself hself').mpr
            ⟨⟨hsum, hdisjoint, hbefore⟩, hrow⟩⟩

theorem isZero_rowOf {l : List Nat} (hl : l.length = 2 ^ p.k) (hc : Collides p generateHash l) :
    (rowOf p generateHash p.k l).isZero = true ↔ xorSum p generateHash l = 0 := by
  have hlt := hc p.k hl
  have hlast : p.k + 1 - p.k = 1 := by omega
  rw [hlast, Nat.mul_one] at hlt
  have hzero : ∀ bytes : List UInt8, bytes.all (· == 0) = true ↔
      bytes = List.replicate bytes.length 0 := by
    intro bytes
    rw [List.all_eq_true, List.eq_replicate_iff]
    simp
  have hhash : (rowOf p generateHash p.k l).hash =
      bigEndian ((p.collisionBitLength + 7) / 8) (xorSum p generateHash l) := by
    rw [rowOf, hlast]
    simp only [digits, List.flatMap_cons, List.flatMap_nil, List.append_nil, Nat.mul_zero,
      Nat.shiftRight_zero, Nat.mod_eq_of_lt hlt]
    rfl
  rw [FullStepRow.isZero, hhash, hzero, length_bigEndian, ← bigEndian_zero]
  constructor
  · exact bigEndian_injective (lt_of_lt_bitLen hlt) (Nat.two_pow_pos _)
  · exact congrArg _

end Rows

/-! ## Accepted solutions -/

section Accepted

theorem isValidSolution_iff (p : Parameters) (generateHash : Nat → Vector UInt8 p.hashOutput)
    (soln : List UInt8) :
    isValidSolution p generateHash soln = true ↔
      soln.length = p.solutionWidth ∧
        IsSolution p generateHash (getIndicesFromMinimal soln p.collisionBitLength) := by
  rw [isValidSolution]
  split
  · rename_i hwidth
    exact iff_of_false Bool.false_ne_true fun h => hwidth h.1
  · rename_i hwidth
    rw [not_not] at hwidth
    have hmin : 8 ≤ p.collisionBitLength + 1 := p.eight_le_collisionBitLength.trans (Nat.le_succ _)
    have hlength : 8 * soln.length = (p.collisionBitLength + 1) * 2 ^ p.k := by
      rw [hwidth, p.eight_mul_solutionWidth]
    have hindices := getIndicesFromMinimal_eq hmin p.lt_index hlength
    have hl : (getIndicesFromMinimal soln p.collisionBitLength).length = 2 ^ p.k := by
      rw [hindices, length_digits]
    have hlt : ∀ i ∈ getIndicesFromMinimal soln p.collisionBitLength, i < 2 ^ 32 := by
      rw [hindices]
      exact fun i hi => lt_index p.lt_index (digits_lt hi)
    have hreduce := fun row => @reduce_stepRow p generateHash p.k le_rfl _ hl hlt row
    dsimp only
    split
    · rename_i hnone
      apply iff_of_false Bool.false_ne_true
      rintro ⟨-, h⟩
      have hsome := (hreduce _).mpr ⟨⟨h.nodup, h.ordered, h.collides⟩, rfl⟩
      rw [hnone] at hsome
      cases hsome
    · rename_i row hsome
      obtain ⟨⟨hnodup, hordered, hcollides⟩, rfl⟩ := (hreduce row).mp hsome
      rw [isZero_rowOf hl (hcollides.self hl)]
      constructor
      · exact fun hzero => ⟨hwidth, hl, hnodup, hordered, hcollides, hzero⟩
      · exact fun h => h.2.sum_eq_zero

theorem verify_eq_true {blake2b : (hLen : Nat) → List UInt8 → List UInt8 → Vector UInt8 hLen}
    {s : Solver} {personalization : Option (List UInt8)} {header solution : List UInt8} :
    s.verify blake2b personalization header solution = true ↔
      header.length = 140 ∧ solution.length = s.solutionSize ∧
        isValidSolution s.parameters (generateHash blake2b s.parameters personalization header)
          solution = true := by
  simp [Solver.verify]

/-- The exported verifiers accept the solutions of the header's generalised birthday problem. -/
theorem verify_iff (blake2b : (hLen : Nat) → List UInt8 → List UInt8 → Vector UInt8 hLen)
    (s : Solver) (personalization : Option (List UInt8)) (header solution : List UInt8) :
    s.verify blake2b personalization header solution = true ↔
      header.length = 140 ∧ solution.length = s.solutionSize ∧
        IsSolution s.parameters (generateHash blake2b s.parameters personalization header)
          (getIndicesFromMinimal solution s.parameters.collisionBitLength) := by
  rw [verify_eq_true, isValidSolution_iff, ← s.size_eq]
  exact ⟨fun h => ⟨h.1, h.2.2⟩, fun h => ⟨h.1, h.2.1, h.2⟩⟩

/-- Of all solutions over the same tree, whichever siblings are exchanged, one is accepted at
most. -/
theorem subsingleton_accepted
    (blake2b : (hLen : Nat) → List UInt8 → List UInt8 → Vector UInt8 hLen) (s : Solver)
    (personalization : Option (List UInt8)) (header : List UInt8) (leaves : List Nat) :
    {solution | s.verify blake2b personalization header solution = true ∧
      SiblingSwap s.parameters.k leaves
        (getIndicesFromMinimal solution s.parameters.collisionBitLength)}.Subsingleton := by
  rintro solution ⟨haccepted, hswap⟩ solution' ⟨haccepted', hswap'⟩
  have hsolution := (isValidSolution_iff _ _ _).mp (verify_eq_true.mp haccepted).2.2
  have hsolution' := (isValidSolution_iff _ _ _).mp (verify_eq_true.mp haccepted').2.2
  have hmin : 8 ≤ s.parameters.collisionBitLength + 1 :=
    s.parameters.eight_le_collisionBitLength.trans (Nat.le_succ _)
  have hback : ∀ {solution : List UInt8}, solution.length = s.parameters.solutionWidth →
      getMinimalFromIndices (getIndicesFromMinimal solution s.parameters.collisionBitLength)
        s.parameters.collisionBitLength = solution := by
    intro solution hwidth
    apply getMinimalFromIndices_getIndicesFromMinimal hmin s.parameters.lt_index
    rw [hwidth, s.parameters.eight_mul_solutionWidth]
  have hindices := hswap.eq_of_ordered hswap' hsolution.2.ordered hsolution'.2.ordered
  rw [← hback hsolution.1, hindices, hback hsolution'.1]

end Accepted

end Miningcore.EquihashSolver
