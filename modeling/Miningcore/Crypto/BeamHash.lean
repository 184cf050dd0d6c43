import Mathlib.Data.List.Nodup
import Miningcore.Crypto.Siphash
import Miningcore.Foundation.BigEndian
import Miningcore.Foundation.ByteFormats
import Miningcore.Foundation.PairReduction

/-!
# BeamHash III

Thirty-two indices are packed into a hundred bytes. Their elements are mixed before they are
joined in pairs, with bits of the indices below them, so what collides depends on the tree.

## Implementation notes

The hash function is a parameter. Packing indices starts with one behind the last of
them, as the source does; whatever is read there is shifted out.

## Main results

* `verifyBH_iff`
* `subsingleton_verifyBH`
* `minimal_round_trip`
-/

namespace Miningcore.BeamHash

open Foundation Siphash

def workBitSize : Nat := 448

def collisionBitSize : Nat := 24

def numRounds : Nat := 5

def siphash24 (prePow : SiphashState) (nonce : UInt64) : UInt64 := (prePow.hash24 nonce).xorLanes

structure StepElem where
  workBits : BitVec workBitSize
  indexTree : List Nat
  nonempty : indexTree ≠ []

namespace StepElem

def ofIndex (prePow : SiphashState) (index : Nat) : StepElem where
  workBits := [6, 5, 4, 3, 2, 1, 0].foldl (fun workBits i =>
    workBits <<< 64 |||
      (siphash24 prePow ((index <<< 3 + i) % 2 ^ 32).toUInt64).toBitVec.setWidth _) 0
  indexTree := [index]
  nonempty := List.cons_ne_nil _ _

def firstIndex (a : StepElem) : Nat := a.indexTree.head a.nonempty

def merge (a b : StepElem) (remLen : Nat) : StepElem where
  workBits := ((a.workBits ^^^ b.workBits) >>> collisionBitSize) &&&
    (BitVec.allOnes _ >>> (workBitSize - remLen))
  indexTree :=
    if a.firstIndex < b.firstIndex then a.indexTree ++ b.indexTree
    else b.indexTree ++ a.indexTree
  nonempty := by
    split
    · exact List.append_ne_nil_of_left_ne_nil a.nonempty _
    · exact List.append_ne_nil_of_left_ne_nil b.nonempty _

/-- The bits that are mixed: those of the work and of the first indices behind them. -/
def paddedBits (a : StepElem) (remLen : Nat) : BitVec 512 :=
  let padNum := min ((512 - remLen + collisionBitSize) / (collisionBitSize + 1)) a.indexTree.length
  (List.range padNum).foldl (fun tempBits i =>
    tempBits ||| BitVec.ofNat 512 (a.indexTree.getD i 0) <<< (remLen + i * (collisionBitSize + 1)))
    (a.workBits.setWidth 512)

def applyMix (a : StepElem) (remLen : Nat) : StepElem :=
  let tempBits := a.paddedBits remLen
  let result := (List.range 8).foldl (fun result i =>
    result + rotl (tempBits >>> (64 * i)).toNat.toUInt64 (29 * (i + 1) &&& 0x3F).toUInt64) 0
  let result := rotl result 24
  { a with workBits := a.workBits >>> 64 <<< 64 ||| result.toBitVec.setWidth _ }

def getCollisionBits (a : StepElem) : BitVec collisionBitSize := a.workBits.setWidth _

def isZero (a : StepElem) : Bool := a.workBits == 0

def hasCollision (a b : StepElem) : Bool := a.getCollisionBits == b.getCollisionBits

def distinctIndices (a b : StepElem) : Bool :=
  a.indexTree.all fun indexA => b.indexTree.all fun indexB => indexA != indexB

def indexAfter (a b : StepElem) : Bool := a.firstIndex < b.firstIndex

end StepElem

/-! ## Packed indices -/

def streamSize : Nat := 800

/-- Values of `width` bits are shifted into the stream, the first of the list at last. -/
def pack (width : Nat) (values : List Nat) : Nat :=
  values.foldr (fun value inStream => inStream <<< width % 2 ^ streamSize ||| value) 0

def unpack (width : Nat) : Nat → Nat → List Nat
  | 0, _ => []
  | count + 1, inStream =>
      (inStream &&& (1 <<< width - 1)) :: unpack width count (inStream >>> width)

def getIndicesFromMinimal (soln : List UInt8) : List Nat :=
  unpack (collisionBitSize + 1) 32 (pack 8 ((soln.take 100).map UInt8.toNat))

/-- The index behind the last one is read as well. -/
def getMinimalFromIndices (sol : List Nat) (beyond : Nat) : List UInt8 :=
  (unpack 8 100 (pack (collisionBitSize + 1) (sol ++ [beyond]))).map Nat.toUInt8

/-! ## Verification -/

/-- The number of bits before a round. -/
def remLenBefore (round : Nat) : Nat :=
  let remLen := workBitSize - (round - 1) * collisionBitSize
  if round = 5 then remLen - 64 else remLen

/-- The number of bits after it. -/
def remLenAfter (round : Nat) : Nat :=
  let remLen := workBitSize - round * collisionBitSize
  let remLen := if round = 4 then remLen - 64 else remLen
  if round = 5 then collisionBitSize else remLen

def joinElems (round : Nat) (a b : StepElem) : Option StepElem :=
  let a := a.applyMix (remLenBefore round)
  let b := b.applyMix (remLenBefore round)
  if !a.hasCollision b then none
  else if !a.distinctIndices b then none
  else if !a.indexAfter b then none
  else some (a.merge b (remLenAfter round))

section Verifier

variable (blake2b : (outlen : Nat) → (personalization message : List UInt8) → Vector UInt8 outlen)

/-- The characters `Beam-PoW` with the two sizes. -/
def personalization : List UInt8 :=
  [66, 101, 97, 109, 45, 80, 111, 87] ++ bytesOf 4 workBitSize ++ bytesOf 4 numRounds

/-- The four words of the hash, which ends with the last bytes of the solution. -/
def prePow (message soln : List UInt8) : SiphashState :=
  let hash := (blake2b 32 personalization (message ++ (soln.drop 100).take 4)).toList
  let word (i : Nat) := (numberOf ((hash.drop (8 * i)).take 8)).toUInt64
  ⟨word 0, word 1, word 2, word 3⟩

def isValidSolution (message soln : List UInt8) : Bool :=
  if soln.length ≠ 104 then false
  else
    let x := (getIndicesFromMinimal soln).map (StepElem.ofIndex (prePow blake2b message soln))
    match reduce joinElems 1 x with
    | none => false
    | some a => a.isZero

/-- The exported verifier of the third scheme. -/
def verifyBH (header nonce soln : List UInt8) : Bool :=
  if header.length ≠ 32 then false
  else if nonce.length ≠ 8 then false
  else isValidSolution blake2b (header ++ nonce) soln

end Verifier

/-! ## Solutions -/

section Problem

variable (prePow : SiphashState)

/-- The element that `2 ^ r` indices are joined to. -/
def node : Nat → List Nat → StepElem
  | 0, indices => .ofIndex prePow (indices.headD 0)
  | r + 1, indices =>
      ((node r (indices.take (2 ^ r))).applyMix (remLenBefore (r + 1))).merge
        ((node r (indices.drop (2 ^ r))).applyMix (remLenBefore (r + 1))) (remLenAfter (r + 1))

/-- The mixed elements of the two halves collide. -/
def Collides (indices : List Nat) : Prop :=
  ∀ r, indices.length = 2 ^ (r + 1) →
    ((node prePow r (indices.take (2 ^ r))).applyMix (remLenBefore (r + 1))).getCollisionBits =
      ((node prePow r (indices.drop (2 ^ r))).applyMix (remLenBefore (r + 1))).getCollisionBits

/-- The halves below every node collide, the first before the second, no index occurs twice,
and no bit is left at the root. -/
structure IsSolution (indices : List Nat) : Prop where
  length : indices.length = 2 ^ numRounds
  nodup : indices.Nodup
  ordered : AllBlocks HalvesOrdered numRounds indices
  collides : AllBlocks (Collides prePow) numRounds indices
  root_eq_zero : (node prePow numRounds indices).workBits = 0

end Problem

section Rounds

variable {prePow : SiphashState}

@[simp] theorem indexTree_applyMix (a : StepElem) (remLen : Nat) :
    (a.applyMix remLen).indexTree = a.indexTree := rfl

theorem node_append {r : Nat} {l l' : List Nat} (hl : l.length = 2 ^ r) :
    node prePow (r + 1) (l ++ l') =
      ((node prePow r l).applyMix (remLenBefore (r + 1))).merge
        ((node prePow r l').applyMix (remLenBefore (r + 1))) (remLenAfter (r + 1)) := by
  rw [node, ← hl, List.take_left' rfl, List.drop_left' rfl]

theorem collides_append {r : Nat} {l l' : List Nat} (hl : l.length = 2 ^ r)
    (hl' : l'.length = 2 ^ r) :
    Collides prePow (l ++ l') ↔
      ((node prePow r l).applyMix (remLenBefore (r + 1))).getCollisionBits =
        ((node prePow r l').applyMix (remLenBefore (r + 1))).getCollisionBits := by
  have hlength : (l ++ l').length = 2 ^ (r + 1) := by
    rw [List.length_append, hl, hl', Nat.pow_succ]
    ring
  constructor
  · intro h
    have hself := h r hlength
    rwa [List.take_left' hl, List.drop_left' hl] at hself
  · intro h s hs
    have hsr : s + 1 = r + 1 := Nat.pow_right_injective le_rfl (hs.symm.trans hlength)
    obtain rfl : s = r := Nat.succ_injective hsr
    rwa [List.take_left' hl, List.drop_left' hl]

theorem collides_singleton (i : Nat) : Collides prePow [i] := by
  intro r hr
  exact absurd hr (Nat.one_lt_two_pow r.succ_ne_zero).ne

theorem distinctIndices_iff {a b : StepElem} :
    a.distinctIndices b = true ↔ a.indexTree.Disjoint b.indexTree := by
  simp only [StepElem.distinctIndices, List.all_eq_true, bne_iff_ne]
  constructor
  · intro h i hi hi'
    exact h i hi i hi' rfl
  · rintro h i hi j hj rfl
    exact h hi hj

/-- Elements without common indices are ordered like the lists of these. -/
theorem indexAfter_iff {a b : StepElem} (h : a.indexTree.Disjoint b.indexTree) :
    a.indexAfter b = true ↔ a.indexTree < b.indexTree := by
  obtain ⟨bits, _ | ⟨i, l⟩, ha⟩ := a
  · exact absurd rfl ha
  obtain ⟨bits', _ | ⟨j, l'⟩, hb⟩ := b
  · exact absurd rfl hb
  have hne : i ≠ j := by
    rintro rfl
    exact h List.mem_cons_self List.mem_cons_self
  rw [lt_iff_of_head_ne hne]
  exact decide_eq_true_iff

theorem indexTree_merge {a b : StepElem} {remLen : Nat} (h : a.indexAfter b = true) :
    (a.merge b remLen).indexTree = a.indexTree ++ b.indexTree :=
  if_pos (of_decide_eq_true h)

/-- A pair is joined exactly if its elements collide, are disjoint and in order. -/
theorem joinElems_eq_some {round : Nat} {a b c : StepElem} :
    joinElems round a b = some c ↔
      ((a.applyMix (remLenBefore round)).getCollisionBits =
          (b.applyMix (remLenBefore round)).getCollisionBits ∧
        a.indexTree.Disjoint b.indexTree ∧ a.indexTree < b.indexTree) ∧
      c = (a.applyMix (remLenBefore round)).merge (b.applyMix (remLenBefore round))
        (remLenAfter round) := by
  have hcollision : (a.applyMix (remLenBefore round)).hasCollision
      (b.applyMix (remLenBefore round)) = true ↔
      (a.applyMix (remLenBefore round)).getCollisionBits =
        (b.applyMix (remLenBefore round)).getCollisionBits := beq_iff_eq
  have hdistinct : (a.applyMix (remLenBefore round)).distinctIndices
      (b.applyMix (remLenBefore round)) = true ↔ a.indexTree.Disjoint b.indexTree :=
    distinctIndices_iff
  rw [joinElems, ← hcollision]
  by_cases hc : (a.applyMix (remLenBefore round)).hasCollision (b.applyMix (remLenBefore round)) =
    true
  · by_cases hd : a.indexTree.Disjoint b.indexTree
    · have hafter : (a.applyMix (remLenBefore round)).indexAfter
          (b.applyMix (remLenBefore round)) = true ↔ a.indexTree < b.indexTree :=
        indexAfter_iff hd
      by_cases ha : a.indexTree < b.indexTree
      · simp [hc, hdistinct.mpr hd, hafter.mpr ha, hd, ha, eq_comm]
      · simp [hc, hdistinct.mpr hd, Bool.eq_false_iff.mpr (mt hafter.mp ha), ha]
    · simp [hc, Bool.eq_false_iff.mpr (mt hdistinct.mp hd), hd]
  · simp [hc]

theorem indexTree_node {r : Nat} {l : List Nat} (hl : l.length = 2 ^ r) (hnodup : l.Nodup)
    (hordered : AllBlocks HalvesOrdered r l) : (node prePow r l).indexTree = l := by
  induction r generalizing l with
  | zero =>
      obtain ⟨i, rfl⟩ := List.length_eq_one_iff.mp hl
      rfl
  | succ r ih =>
      obtain ⟨l, l', rfl, hl, hl'⟩ := exists_halves hl
      rw [allBlocks_append hl hl', halvesOrdered_append (hl.trans hl'.symm)] at hordered
      obtain ⟨hnodup, hnodup', hdisjoint⟩ := List.nodup_append'.mp hnodup
      have htree := ih hl hnodup hordered.2.1
      have htree' := ih hl' hnodup' hordered.2.2
      rw [node_append hl, indexTree_merge, indexTree_applyMix, indexTree_applyMix, htree, htree']
      apply (indexAfter_iff _).mpr
      · rw [indexTree_applyMix, indexTree_applyMix, htree, htree']
        exact hordered.1
      · rw [indexTree_applyMix, indexTree_applyMix, htree, htree']
        exact hdisjoint

theorem reduce_ofIndex {r : Nat} {l : List Nat} (hl : l.length = 2 ^ r) {a : StepElem} :
    reduce joinElems 1 (l.map (.ofIndex prePow)) = some a ↔
      (l.Nodup ∧ AllBlocks HalvesOrdered r l ∧ AllBlocks (Collides prePow) r l) ∧
        a = node prePow r l := by
  induction r generalizing l a with
  | zero =>
      obtain ⟨i, rfl⟩ := List.length_eq_one_iff.mp hl
      rw [allBlocks_zero hl, allBlocks_zero hl, List.map_singleton, reduce_singleton,
        Option.some_inj]
      simp only [List.nodup_singleton, halvesOrdered_singleton, collides_singleton, true_and]
      exact eq_comm
  | succ r ih =>
      obtain ⟨l, l', rfl, hl, hl'⟩ := exists_halves hl
      have hmap : ∀ {l : List Nat}, l.length = 2 ^ r →
          (l.map (StepElem.ofIndex prePow)).length = 2 ^ r := by
        intro l hl
        rw [List.length_map, hl]
      rw [List.map_append, reduce_append (hmap hl) (hmap hl'), allBlocks_append hl hl',
        allBlocks_append hl hl', halvesOrdered_append (hl.trans hl'.symm), List.nodup_append',
        node_append hl, collides_append hl hl', Nat.add_comm 1 r]
      simp only [Option.bind_eq_some_iff, ih hl, ih hl', joinElems_eq_some]
      constructor
      · rintro ⟨_, ⟨⟨hnodup, hordered, hcollides⟩, rfl⟩, _, ⟨⟨hnodup', hordered', hcollides'⟩, rfl⟩,
          ⟨hsum, hdisjoint, hbefore⟩, ha⟩
        rw [indexTree_node hl hnodup hordered, indexTree_node hl' hnodup' hordered']
          at hdisjoint hbefore
        exact ⟨⟨⟨hnodup, hnodup', hdisjoint⟩, ⟨hbefore, hordered, hordered'⟩,
          hsum, hcollides, hcollides'⟩, ha⟩
      · rintro ⟨⟨⟨hnodup, hnodup', hdisjoint⟩, ⟨hbefore, hordered, hordered'⟩, hsum, hcollides,
          hcollides'⟩, ha⟩
        refine ⟨_, ⟨⟨hnodup, hordered, hcollides⟩, rfl⟩, _, ⟨⟨hnodup', hordered', hcollides'⟩, rfl⟩,
          ⟨hsum, ?_⟩, ha⟩
        rw [indexTree_node hl hnodup hordered, indexTree_node hl' hnodup' hordered']
        exact ⟨hdisjoint, hbefore⟩

end Rounds

/-! ## The indices of a solution -/

section Packing

variable {width : Nat} {values : List Nat}

/-- What was there before is shifted out of the lowest bits. -/
theorem bits_pack_append (h : ∀ value ∈ values, value < 2 ^ width)
    (hfits : width * values.length ≤ streamSize) (rest : List Nat) :
    bits (width * values.length) (pack width (values ++ rest)) =
      bitStream width values.reverse := by
  induction values with
  | nil => rfl
  | cons value values ih =>
      obtain ⟨hvalue, h⟩ := List.forall_mem_cons.mp h
      rw [List.length_cons, Nat.mul_succ] at hfits ⊢
      have hpack : pack width (value :: values ++ rest) =
          pack width (values ++ rest) <<< width % 2 ^ streamSize ||| value := rfl
      have hcut : bits (width * values.length + width)
          (pack width (values ++ rest) <<< width % 2 ^ streamSize ||| value) =
            bits (width * values.length + width)
              (pack width (values ++ rest) <<< width ||| value) := by
        apply bits_congr
        intro i hi
        rw [Nat.testBit_or, Nat.testBit_or, Nat.testBit_mod_two_pow,
          decide_eq_true (hi.trans_le hfits), Bool.true_and]
      rw [hpack, hcut, bits_shiftLeft_or hvalue, ih h (Nat.le_of_add_right_le hfits),
        List.reverse_cons, bitStream_append, bitStream_singleton]

theorem unpack_eq (width count n : Nat) :
    unpack width count n = (digits width count n).reverse := by
  induction count generalizing n with
  | zero => rfl
  | succ count ih =>
      rw [unpack, ih, digits_concat, List.reverse_append, List.reverse_singleton,
        List.singleton_append, Nat.one_shiftLeft, Nat.and_two_pow_sub_one_eq_mod]

end Packing

theorem lt_of_mem_toNat {bytes : List UInt8} : ∀ value ∈ bytes.map UInt8.toNat, value < 2 ^ 8 := by
  intro value hvalue
  obtain ⟨byte, -, rfl⟩ := List.mem_map.mp hvalue
  exact byte.toNat_lt

theorem getIndicesFromMinimal_eq (soln : List UInt8) :
    getIndicesFromMinimal soln =
      (digits (collisionBitSize + 1) 32 (pack 8 ((soln.take 100).map UInt8.toNat))).reverse :=
  unpack_eq _ _ _

@[simp] theorem length_getIndicesFromMinimal (soln : List UInt8) :
    (getIndicesFromMinimal soln).length = 32 := by
  rw [getIndicesFromMinimal_eq, List.length_reverse, length_digits]

theorem lt_of_mem_getIndicesFromMinimal {soln : List UInt8} :
    ∀ i ∈ getIndicesFromMinimal soln, i < 2 ^ (collisionBitSize + 1) := by
  intro i hi
  rw [getIndicesFromMinimal_eq, List.mem_reverse] at hi
  exact digits_lt hi

theorem bits_getIndicesFromMinimal {soln : List UInt8} (h : 100 ≤ soln.length) :
    bitStream (collisionBitSize + 1) (getIndicesFromMinimal soln).reverse =
      bitStream 8 ((soln.take 100).map UInt8.toNat).reverse := by
  have hlength : ((soln.take 100).map UInt8.toNat).length = 100 := by
    rw [List.length_map, List.length_take, Nat.min_eq_left h]
  have hbits := bits_pack_append (@lt_of_mem_toNat (soln.take 100))
    (by rw [hlength, streamSize]) []
  rw [List.append_nil, hlength] at hbits
  rw [getIndicesFromMinimal_eq, List.reverse_reverse, bitStream_digits, ← hbits, collisionBitSize]

/-- Solutions of the same indices differ in the bytes behind them only. -/
theorem take_eq_of_getIndicesFromMinimal {soln soln' : List UInt8} (h : 100 ≤ soln.length)
    (h' : 100 ≤ soln'.length) (heq : getIndicesFromMinimal soln = getIndicesFromMinimal soln') :
    soln.take 100 = soln'.take 100 := by
  have hstream := bits_getIndicesFromMinimal h
  rw [heq, bits_getIndicesFromMinimal h'] at hstream
  have hlt : ∀ {bytes : List UInt8}, ∀ value ∈ (bytes.map UInt8.toNat).reverse, value < 2 ^ 8 :=
    fun value hvalue => lt_of_mem_toNat value (List.mem_reverse.mp hvalue)
  have hbytes := bitStream_injective hlt hlt (by simp [h, h']) hstream
  exact List.map_injective_iff.mpr (fun _ _ => UInt8.toNat_inj.mp)
    (List.reverse_injective hbytes.symm)

theorem getMinimalFromIndices_spec {sol : List Nat} (hlength : sol.length = 32)
    (hlt : ∀ i ∈ sol, i < 2 ^ (collisionBitSize + 1)) (beyond : Nat) :
    (getMinimalFromIndices sol beyond).length = 100 ∧
      bitStream 8 ((getMinimalFromIndices sol beyond).map UInt8.toNat).reverse =
        bitStream (collisionBitSize + 1) sol.reverse := by
  have hbits := bits_pack_append hlt (by rw [hlength, collisionBitSize, streamSize]) [beyond]
  have hbytes : (getMinimalFromIndices sol beyond).map UInt8.toNat =
      unpack 8 100 (pack (collisionBitSize + 1) (sol ++ [beyond])) := by
    rw [getMinimalFromIndices, List.map_map, unpack_eq]
    conv_rhs => rw [← List.map_id (List.reverse _)]
    apply List.map_congr_left
    intro value hvalue
    exact UInt8.toNat_ofNat_of_lt' (digits_lt (List.mem_reverse.mp hvalue))
  constructor
  · rw [getMinimalFromIndices, List.length_map, unpack_eq, List.length_reverse, length_digits]
  · rw [hbytes, unpack_eq, List.reverse_reverse, bitStream_digits, ← hbits, hlength,
      collisionBitSize]

/-- Whatever stands behind the indices, packing them is the inverse of reading them. -/
theorem minimal_round_trip :
    (∀ soln : List UInt8, 100 ≤ soln.length → ∀ beyond,
      getMinimalFromIndices (getIndicesFromMinimal soln) beyond = soln.take 100) ∧
    ∀ sol : List Nat, sol.length = 32 → (∀ i ∈ sol, i < 2 ^ (collisionBitSize + 1)) → ∀ beyond,
      getIndicesFromMinimal (getMinimalFromIndices sol beyond) = sol := by
  constructor
  · intro soln h beyond
    obtain ⟨hlength, hstream⟩ := getMinimalFromIndices_spec (length_getIndicesFromMinimal soln)
      lt_of_mem_getIndicesFromMinimal beyond
    rw [bits_getIndicesFromMinimal h] at hstream
    have hlt : ∀ {bytes : List UInt8}, ∀ value ∈ (bytes.map UInt8.toNat).reverse, value < 2 ^ 8 :=
      fun value hvalue => lt_of_mem_toNat value (List.mem_reverse.mp hvalue)
    have hbytes := bitStream_injective hlt hlt (by simp [h, hlength]) hstream
    exact List.map_injective_iff.mpr (fun _ _ => UInt8.toNat_inj.mp)
      (List.reverse_injective hbytes)
  · intro sol hcount hlt beyond
    obtain ⟨hlength, hstream⟩ := getMinimalFromIndices_spec hcount hlt beyond
    have hindices := bits_getIndicesFromMinimal hlength.ge
    rw [List.take_of_length_le hlength.le, hstream] at hindices
    apply List.reverse_injective
    apply bitStream_injective _ _ _ hindices
    · exact fun i hi => lt_of_mem_getIndicesFromMinimal i (List.mem_reverse.mp hi)
    · exact fun i hi => hlt i (List.mem_reverse.mp hi)
    · rw [List.length_reverse, List.length_reverse, length_getIndicesFromMinimal, hcount]

theorem minimal_round_trip_replicate :
    getMinimalFromIndices (getIndicesFromMinimal (List.replicate 104 0xa5)) 7 =
      (List.replicate 104 0xa5).take 100 :=
  minimal_round_trip.1 (List.replicate 104 0xa5) (by rw [List.length_replicate]; decide) 7

/-! ## Accepted solutions -/

section Accepted

variable (blake2b : (outlen : Nat) → (personalization message : List UInt8) → Vector UInt8 outlen)

theorem isValidSolution_iff (message soln : List UInt8) :
    isValidSolution blake2b message soln = true ↔
      soln.length = 104 ∧
        IsSolution (prePow blake2b message soln) (getIndicesFromMinimal soln) := by
  rw [isValidSolution]
  split
  · rename_i hlength
    exact iff_of_false Bool.false_ne_true fun h => hlength h.1
  · rename_i hlength
    rw [not_not] at hlength
    have hl : (getIndicesFromMinimal soln).length = 2 ^ numRounds :=
      length_getIndicesFromMinimal soln
    have hreduce := fun a => @reduce_ofIndex (prePow blake2b message soln) _ _ hl a
    dsimp only
    split
    · rename_i hnone
      apply iff_of_false Bool.false_ne_true
      rintro ⟨-, h⟩
      have hsome := (hreduce _).mpr ⟨⟨h.nodup, h.ordered, h.collides⟩, rfl⟩
      rw [hnone] at hsome
      cases hsome
    · rename_i a hsome
      obtain ⟨⟨hnodup, hordered, hcollides⟩, rfl⟩ := (hreduce a).mp hsome
      rw [StepElem.isZero, beq_iff_eq]
      constructor
      · exact fun hzero => ⟨hlength, hl, hnodup, hordered, hcollides, hzero⟩
      · exact fun h => h.2.root_eq_zero

theorem verifyBH_eq_true {header nonce soln : List UInt8} :
    verifyBH blake2b header nonce soln = true ↔
      header.length = 32 ∧ nonce.length = 8 ∧
        isValidSolution blake2b (header ++ nonce) soln = true := by
  simp [verifyBH]

/-- What is accepted are solutions of the header, the nonce and the bytes behind the indices. -/
theorem verifyBH_iff (header nonce soln : List UInt8) :
    verifyBH blake2b header nonce soln = true ↔
      header.length = 32 ∧ nonce.length = 8 ∧ soln.length = 104 ∧
        IsSolution (prePow blake2b (header ++ nonce) soln) (getIndicesFromMinimal soln) := by
  rw [verifyBH_eq_true, isValidSolution_iff]

/-- Of all solutions with the same last bytes over the same tree, whichever siblings are
exchanged, one is accepted at most. -/
theorem subsingleton_verifyBH (header nonce extraNonce : List UInt8) (leaves : List Nat) :
    {soln | verifyBH blake2b header nonce soln = true ∧ soln.drop 100 = extraNonce ∧
      SiblingSwap numRounds leaves (getIndicesFromMinimal soln)}.Subsingleton := by
  rintro soln ⟨haccepted, hextra, hswap⟩ soln' ⟨haccepted', hextra', hswap'⟩
  obtain ⟨hlength, hsolution⟩ := (isValidSolution_iff _ _ _).mp
    ((verifyBH_eq_true _).mp haccepted).2.2
  obtain ⟨hlength', hsolution'⟩ := (isValidSolution_iff _ _ _).mp
    ((verifyBH_eq_true _).mp haccepted').2.2
  have hindices := hswap.eq_of_ordered hswap' hsolution.ordered hsolution'.ordered
  have hfront := take_eq_of_getIndicesFromMinimal (by omega) (by omega) hindices
  rw [← List.take_append_drop 100 soln, hfront, hextra, ← hextra', List.take_append_drop]

end Accepted

end Miningcore.BeamHash
