import Miningcore.Foundation.ReversibleWalk
import Mathlib.Data.Fintype.Sum
import Mathlib.Data.List.FinRange
import Mathlib.Data.Nat.Bitwise
import Miningcore.Crypto.Siphash

/-!
# Verification of Cuckaroo cycles

A solution names forty-two edges of a graph that the header generates. The endpoints
are read into one array, the left ones at even and the right ones at odd places. The
cycle is followed from the first endpoint: to the only other endpoint on the same node,
then to the other end of that edge.

## Implementation notes

The array lookups are optional, so that reading outside of the array would show. The
two loops have a number of rounds they may take.
-/

namespace Miningcore.CortexCuckooCycle

open Foundation Siphash

/-! ## Edges of the graph -/

structure SiphashKeys where
  k0 : UInt64
  k1 : UInt64
  k2 : UInt64
  k3 : UInt64

def SiphashKeys.state (keys : SiphashKeys) : SiphashState :=
  ⟨keys.k0, keys.k1, keys.k2, keys.k3⟩

def edgeBlockBits : Nat := 6

def edgeBlockSize : Nat := 1 <<< edgeBlockBits

def edgeBlockMask : UInt32 := edgeBlockSize.toUInt32 - 1

/-- The outputs of the block, where the state goes on from one to the next. -/
def sipOutputs (edge0 : UInt32) : Nat → Nat → SiphashState → List UInt64
  | 0, _, _ => []
  | rest + 1, i, state =>
      let state := state.hash24 (edge0 + i.toUInt32).toUInt64
      state.xorLanes :: sipOutputs edge0 rest (i + 1) state

def sipblock (keys : SiphashKeys) (edge : UInt32) : UInt64 :=
  let edge0 := edge &&& ~~~ edgeBlockMask
  let buf := sipOutputs edge0 edgeBlockSize 0 keys.state
  let last := buf.getD edgeBlockMask.toNat 0
  let place := (edge &&& edgeBlockMask).toNat
  if place < edgeBlockMask.toNat then buf.getD place 0 ^^^ last else last

/-! ## Verification -/

inductive VerifyCode where
  | ok
  | headerLength
  | tooBig
  | tooSmall
  | nonMatching
  | branch
  | deadEnd
  | shortCycle
deriving DecidableEq

def edgeBits : UInt32 := 30

def edgeMask : UInt32 := (1 <<< edgeBits) - 1

def proofSize : Nat := 42

variable (sips : UInt32 → UInt64)

def leftNode (edge : UInt32) : UInt32 := (sips edge).toUInt32 &&& edgeMask

def rightNode (edge : UInt32) : UInt32 := (sips edge >>> 32).toUInt32 &&& edgeMask

structure Endpoints where
  xor0 : UInt32 := 0
  xor1 : UInt32 := 0
  uvs : List UInt32 := []

/-- The first loop, behind an edge. -/
def readEndpoints : Option UInt32 → List UInt32 → Endpoints → Except VerifyCode Endpoints
  | _, [], endpoints => .ok endpoints
  | previous, edge :: rest, endpoints =>
      if edgeMask < edge then .error .tooBig
      else if previous.any (edge ≤ ·) then .error .tooSmall
      else readEndpoints (some edge) rest
        { xor0 := endpoints.xor0 ^^^ leftNode sips edge
          xor1 := endpoints.xor1 ^^^ rightNode sips edge
          uvs := endpoints.uvs ++ [leftNode sips edge, rightNode sips edge] }

/-- The inner loop: `j` is the endpoint found so far, and `i` if there is none. -/
def findMatch (uvs : List UInt32) (i : Nat) : Nat → Nat → Nat → Option (Except VerifyCode Nat)
  | 0, _, _ => none
  | rounds + 1, k, j =>
      let k := (k + 2) % uvs.length
      if k = i then some (.ok j)
      else if uvs[k]? = uvs[i]? then
        if j ≠ i then some (.error .branch) else findMatch uvs i rounds k k
      else findMatch uvs i rounds k j

/-- The outer loop. -/
def followCycle (size : Nat) (uvs : List UInt32) : Nat → Nat → Nat → Option VerifyCode
  | 0, _, _ => none
  | rounds + 1, n, i =>
      match findMatch uvs i size i i with
      | none => none
      | some (.error code) => some code
      | some (.ok j) =>
          if j = i then some .deadEnd
          else
            let i := j ^^^ 1
            let n := n + 1
            if i ≠ 0 then followCycle size uvs rounds n i
            else some (if n = size then .ok else .shortCycle)

/-- The verification, with its result when the loops end within the rounds. -/
def verify {size : Nat} (edges : Vector UInt32 size) : Option VerifyCode :=
  match readEndpoints sips none edges.toList {} with
  | .error code => some code
  | .ok endpoints =>
      if endpoints.xor0 ||| endpoints.xor1 ≠ 0 then some .nonMatching
      else followCycle size endpoints.uvs size 0 0

def cuckarooCortexVerify (edges : Vector UInt32 proofSize) (keys : SiphashKeys) :
    Option VerifyCode :=
  verify (sipblock keys) edges

/-- The edges are in range and ascend, and form one cycle of the graph. -/
structure IsSolution {size : Nat} (edges : Vector UInt32 size) : Prop where
  inRange : ∀ n : Fin size, edges[n] ≤ edgeMask
  ascending : ∀ m n : Fin size, m < n → edges[m] < edges[n]
  cycle : ∃ m, ∃ a b : Fin (m + 1) → Fin size,
    IsCycle (fun n => leftNode sips edges[n]) (fun n => rightNode sips edges[n]) a b

/-! ## Matching endpoints -/

section Match

variable {uvs : List UInt32} {size i : Nat}

/-- Another endpoint of the same side, on the same node. -/
def IsMatch (uvs : List UInt32) (i k : Nat) : Prop :=
  k < uvs.length ∧ k ≠ i ∧ k % 2 = i % 2 ∧ uvs[k]? = uvs[i]?

def IsOnlyMatch (uvs : List UInt32) (i j : Nat) : Prop :=
  IsMatch uvs i j ∧ ∀ k, IsMatch uvs i k → k = j

theorem IsMatch.lt {k : Nat} (h : IsMatch uvs i k) : i < uvs.length := by
  obtain ⟨hlt, -, -, heq⟩ := h
  by_contra hle
  rw [List.getElem?_eq_none (Nat.le_of_not_lt hle), List.getElem?_eq_getElem hlt] at heq
  cases heq

theorem IsMatch.symm {k : Nat} (h : IsMatch uvs i k) : IsMatch uvs k i :=
  ⟨h.lt, h.2.1.symm, h.2.2.1.symm, h.2.2.2.symm⟩

/-- The only match of `i` has `i` for its only match. -/
theorem IsOnlyMatch.symm {j : Nat} (h : IsOnlyMatch uvs i j) : IsOnlyMatch uvs j i := by
  refine ⟨h.1.symm, fun k hk => ?_⟩
  by_contra hne
  apply hk.2.1
  apply h.2
  exact ⟨hk.1, hne, hk.2.2.1.trans h.1.2.2.1, hk.2.2.2.trans h.1.2.2.2⟩

/-- Where `k` stands after `l` rounds. -/
theorem round_eq {l : Nat} (hi : i < 2 * size) (hl : l ≤ size) : (i + 2 * l) % (2 * size) =
    if i + 2 * l < 2 * size then i + 2 * l else i + 2 * l - 2 * size := by
  split
  · rename_i hlt
    exact Nat.mod_eq_of_lt hlt
  · rename_i hle
    rw [Nat.mod_eq_sub_mod (Nat.le_of_not_lt hle), Nat.mod_eq_of_lt (by omega)]

/-- Every other endpoint of the side is reached in some round. -/
theorem exists_round {k : Nat} (hi : i < 2 * size) (hk : k < 2 * size) (hne : k ≠ i)
    (hparity : k % 2 = i % 2) : ∃ l, 0 < l ∧ l < size ∧ (i + 2 * l) % (2 * size) = k := by
  rcases lt_or_ge i k with hlt | hle
  · refine ⟨(k - i) / 2, by omega, by omega, ?_⟩
    rw [round_eq hi (by omega)]
    split <;> omega
  · refine ⟨(k + 2 * size - i) / 2, by omega, by omega, ?_⟩
    rw [round_eq hi (by omega)]
    split <;> omega

/-- What the inner loop may end with. -/
def MatchOutcome (uvs : List UInt32) (i : Nat) : Except VerifyCode Nat → Prop
  | .ok j => (j = i ∨ IsMatch uvs i j) ∧ ∀ k, IsMatch uvs i k → k = j
  | .error code => code = .branch ∧ ∃ j k, IsMatch uvs i j ∧ IsMatch uvs i k ∧ k ≠ j

/-- The inner loop from round `l` on, where `j` is what the earlier rounds have found. -/
theorem exists_findMatch (hlength : uvs.length = 2 * size) (hi : i < 2 * size)
    (rounds l j : Nat) (hrounds : l + rounds = size) (hpos : 0 < rounds)
    (hj : j = i ∨ IsMatch uvs i j ∧ ∃ l' ≤ l, j = (i + 2 * l') % (2 * size))
    (hseen : ∀ l', 0 < l' → l' ≤ l → IsMatch uvs i ((i + 2 * l') % (2 * size)) →
      (i + 2 * l') % (2 * size) = j) :
    ∃ result, findMatch uvs i rounds ((i + 2 * l) % (2 * size)) j = some result ∧
      MatchOutcome uvs i result := by
  induction rounds generalizing l j with
  | zero => exact absurd hpos (Nat.lt_irrefl 0)
  | succ rounds ih =>
      have hnext : ((i + 2 * l) % (2 * size) + 2) % uvs.length =
          (i + 2 * (l + 1)) % (2 * size) := by
        rw [hlength, Nat.mod_add_mod]
        congr 1
      have hround := round_eq (l := l + 1) hi (by omega)
      simp only [findMatch, hnext]
      by_cases hlast : rounds = 0
      · -- The last round is back at `i`.
        have hback : (i + 2 * (l + 1)) % (2 * size) = i := by
          rw [hround]
          split <;> omega
        rw [if_pos hback]
        refine ⟨_, rfl, hj.imp_right And.left, fun k hk => ?_⟩
        have hlt : k < 2 * size := hlength ▸ hk.1
        obtain ⟨l', hl', hlt', rfl⟩ := exists_round hi hlt hk.2.1 hk.2.2.1
        exact hseen l' hl' (by omega) hk
      · have hne : (i + 2 * (l + 1)) % (2 * size) ≠ i := by
          rw [hround]
          split <;> omega
        have hlt : (i + 2 * (l + 1)) % (2 * size) < uvs.length := by
          rw [hlength]
          exact Nat.mod_lt _ (by omega)
        have hparity : (i + 2 * (l + 1)) % (2 * size) % 2 = i % 2 := by
          rw [hround]
          split <;> omega
        rw [if_neg hne]
        split
        · rename_i heq
          have hmatch : IsMatch uvs i ((i + 2 * (l + 1)) % (2 * size)) :=
            ⟨hlt, hne, hparity, heq⟩
          split
          · -- There was a match in an earlier round.
            rename_i hfound
            obtain ⟨hother, l', hl', rfl⟩ := hj.resolve_left hfound
            clear hj
            refine ⟨_, rfl, rfl, _, _, hother, hmatch, ?_⟩
            rw [hround, round_eq hi (by omega)]
            split <;> split <;> omega
          · rename_i hfirst
            rw [not_not] at hfirst
            apply ih (l + 1) _ (by omega) (by omega) (.inr ⟨hmatch, l + 1, le_rfl, rfl⟩)
            intro l' hl' hle hmatch'
            rcases Nat.lt_or_ge l l' with hgt | hle'
            · have hsame : l' = l + 1 := by omega
              rw [hsame]
            · exact absurd ((hseen l' hl' hle' hmatch').trans hfirst) hmatch'.2.1
        · rename_i hdiffer
          apply ih (l + 1) j (by omega) (by omega)
            (hj.imp_right fun h => ⟨h.1, h.2.imp fun _ h => ⟨Nat.le_succ_of_le h.1, h.2⟩⟩)
          intro l' hl' hle hmatch'
          rcases Nat.lt_or_ge l l' with hgt | hle'
          · have hsame : l' = l + 1 := by omega
            rw [hsame] at hmatch'
            exact absurd hmatch'.2.2.2 hdiffer
          · exact hseen l' hl' hle' hmatch'

/-- The inner loop ends, with the only match if there is one. -/
theorem exists_findMatch_start (hlength : uvs.length = 2 * size) (hi : i < 2 * size) :
    ∃ result, findMatch uvs i size i i = some result ∧ MatchOutcome uvs i result := by
  have hstart : (i + 2 * 0) % (2 * size) = i := Nat.mod_eq_of_lt hi
  have hloop := exists_findMatch hlength hi size 0 i (Nat.zero_add size) (by omega) (.inl rfl)
    (fun l' hl' hle => absurd hle (by omega))
  rwa [hstart] at hloop

end Match

/-! ## Following the cycle -/

/-- The cycle goes from `i` to the other end of the edge of the only match. -/
def Follows (uvs : List UInt32) (i i' : Nat) : Prop := IsOnlyMatch uvs i (i' ^^^ 1)

theorem xor_one_mod (i : Nat) : (i ^^^ 1) % 2 = 1 - i % 2 := by
  have hmod := Nat.xor_mod_two_eq (m := i) (n := 1)
  omega

theorem two_mul_xor_one (n : Nat) : 2 * n ^^^ 1 = 2 * n + 1 := by simp

theorem two_mul_add_one_xor_one (n : Nat) : (2 * n + 1) ^^^ 1 = 2 * n := by
  rw [← two_mul_xor_one, Nat.xor_xor_cancel_right]

theorem xor_one_lt {i size : Nat} (hi : i < 2 * size) : i ^^^ 1 < 2 * size := by
  rcases Nat.even_or_odd' i with ⟨n, rfl | rfl⟩
  · rw [two_mul_xor_one]
    omega
  · rw [two_mul_add_one_xor_one]
    omega

theorem reversible_follows (uvs : List UInt32) : Reversible (Follows uvs) (· ^^^ 1) where
  opposite_opposite x := Nat.xor_xor_cancel_right x 1
  opposite_ne x := by
    intro heq
    have hmod := xor_one_mod x
    rw [heq] at hmod
    omega
  functional := by
    intro x y z hy hz
    have heq := congrArg (· ^^^ 1) (hz.2 _ hy.1)
    simpa only [Nat.xor_xor_cancel_right] using heq
  back := by
    intro x y h
    change IsOnlyMatch uvs (y ^^^ 1) (x ^^^ 1 ^^^ 1)
    rw [Nat.xor_xor_cancel_right]
    exact h.symm
  not_turn := by
    intro x h
    apply h.1.2.1
    exact Nat.xor_xor_cancel_right x 1

section Follow

variable {uvs : List UInt32} {size i : Nat}

theorem Follows.lt {i' : Nat} (hlength : uvs.length = 2 * size) (h : Follows uvs i i') :
    i' < 2 * size := by
  have hlt := h.1.1
  rw [hlength] at hlt
  have hback := xor_one_lt hlt
  rwa [Nat.xor_xor_cancel_right] at hback

theorem Follows.mod_two {i' : Nat} (h : Follows uvs i i') : i' % 2 = 1 - i % 2 := by
  have hparity := h.1.2.2.1
  have hmod := xor_one_mod i'
  omega

theorem followCycle_of_follows {i' : Nat} (hlength : uvs.length = 2 * size) (hi : i < 2 * size)
    (h : Follows uvs i i') (rounds n : Nat) :
    followCycle size uvs (rounds + 1) n i =
      if i' ≠ 0 then followCycle size uvs rounds (n + 1) i'
      else some (if n + 1 = size then .ok else .shortCycle) := by
  obtain ⟨result, hfind, houtcome⟩ := exists_findMatch_start hlength hi
  rw [followCycle, hfind]
  cases result with
  | error code =>
      obtain ⟨-, j, k, hj, hk, hne⟩ := houtcome
      exact absurd ((h.2 k hk).trans (h.2 j hj).symm) hne
  | ok j =>
      have hj := houtcome.2 _ h.1
      have hne : i' ^^^ 1 ≠ i := h.1.2.1
      simp only [← hj, if_neg hne, Nat.xor_xor_cancel_right]

theorem exists_followCycle_of_not (hlength : uvs.length = 2 * size) (hi : i < 2 * size)
    (h : ∀ i', ¬ Follows uvs i i') (rounds n : Nat) :
    ∃ code, followCycle size uvs (rounds + 1) n i = some code ∧ code ≠ .ok := by
  obtain ⟨result, hfind, houtcome⟩ := exists_findMatch_start hlength hi
  rw [followCycle, hfind]
  cases result with
  | error code =>
      refine ⟨code, rfl, ?_⟩
      rw [houtcome.1]
      decide
  | ok j =>
      have hj : j = i := by
        by_contra hne
        apply h (j ^^^ 1)
        rw [Follows, Nat.xor_xor_cancel_right]
        exact ⟨houtcome.1.resolve_left hne, houtcome.2⟩
      exact ⟨.deadEnd, if_pos hj, by decide⟩

theorem ne_zero_cons {w : ℕ → ℕ} {len : ℕ} (hstart : w 0 ≠ 0)
    (hfirst : ∀ t, 0 < t → t ≤ len → w t ≠ 0) (t : ℕ) (ht : 0 < t) (hle : t ≤ len + 1) :
    (t.casesOn i w : ℕ) ≠ 0 := by
  obtain ⟨t, rfl⟩ := Nat.exists_eq_succ_of_ne_zero ht.ne'
  rcases Nat.eq_zero_or_pos t with rfl | hpos
  · exact hstart
  · exact hfirst t hpos (Nat.le_of_succ_le_succ hle)

/-- Without a result the rounds were a walk that has not come to the first endpoint. -/
theorem exists_walk_of_followCycle_eq_none (hlength : uvs.length = 2 * size) {rounds n : Nat}
    (hi : i < 2 * size) (h : followCycle size uvs rounds n i = none) :
    ∃ w : ℕ → ℕ, w 0 = i ∧ IsWalk (Follows uvs) w rounds ∧ ∀ t, 0 < t → t ≤ rounds → w t ≠ 0 := by
  induction rounds generalizing n i with
  | zero =>
      exact ⟨fun _ => i, rfl, fun t ht => absurd ht (Nat.not_lt_zero t),
        fun t ht hle => absurd hle (by omega)⟩
  | succ rounds ih =>
      by_cases hfollows : ∃ i', Follows uvs i i'
      · obtain ⟨i', hi'⟩ := hfollows
        rw [followCycle_of_follows hlength hi hi'] at h
        split at h
        · rename_i hne
          obtain ⟨w, hstart, hwalk, hfirst⟩ := ih (hi'.lt hlength) h
          refine ⟨fun t => t.casesOn i w, rfl, IsWalk.cons (hstart ▸ hi') hwalk, ?_⟩
          exact ne_zero_cons (hstart ▸ hne) hfirst
        · cases h
      · obtain ⟨code, hcode, -⟩ :=
          exists_followCycle_of_not hlength hi (not_exists.mp hfollows) rounds n
        rw [hcode] at h
        cases h

/-- The result is good when a walk of the right length comes to the first endpoint. -/
theorem followCycle_eq_ok_iff (hlength : uvs.length = 2 * size) {rounds n : Nat}
    (hi : i < 2 * size) :
    followCycle size uvs rounds n i = some .ok ↔
      ∃ len, len < rounds ∧ n + len + 1 = size ∧ ∃ w : ℕ → ℕ, w 0 = i ∧
        IsWalk (Follows uvs) w (len + 1) ∧ w (len + 1) = 0 ∧ ∀ t, 0 < t → t ≤ len → w t ≠ 0 := by
  induction rounds generalizing n i with
  | zero => simp [followCycle]
  | succ rounds ih =>
      by_cases hfollows : ∃ i', Follows uvs i i'
      · obtain ⟨i', hi'⟩ := hfollows
        rw [followCycle_of_follows hlength hi hi']
        split
        · rename_i hne
          rw [ih (hi'.lt hlength)]
          constructor
          · rintro ⟨len, hlen, hsize, w, hstart, hwalk, hend, hfirst⟩
            refine ⟨len + 1, by omega, by omega, fun t => t.casesOn i w, rfl,
              IsWalk.cons (hstart ▸ hi') hwalk, hend, ?_⟩
            exact ne_zero_cons (hstart ▸ hne) hfirst
          · rintro ⟨len, hlen, hsize, w, hstart, hwalk, hend, hfirst⟩
            have hsecond : w 1 = i' := by
              apply (reversible_follows uvs).functional _ hi'
              rw [← hstart]
              exact hwalk 0 (Nat.succ_pos len)
            cases len with
            | zero => exact absurd (hsecond.symm.trans hend) hne
            | succ len =>
                exact ⟨len, by omega, by omega, fun t => w (t + 1), hsecond, hwalk.tail, hend,
                  fun t ht hle => hfirst (t + 1) (Nat.succ_pos t) (Nat.succ_le_succ hle)⟩
        · rename_i hzero
          rw [not_not] at hzero
          rw [Option.some.injEq]
          constructor
          · intro h
            have hsize : n + 1 = size := by
              by_contra hne
              rw [if_neg hne] at h
              cases h
            refine ⟨0, Nat.succ_pos rounds, hsize, fun t => t.casesOn i fun _ => i', rfl, ?_, hzero,
              fun t ht hle => absurd hle (by omega)⟩
            intro t ht
            obtain rfl : t = 0 := by omega
            exact hi'
          · rintro ⟨len, hlen, hsize, w, hstart, hwalk, hend, hfirst⟩
            have hsecond : w 1 = i' := by
              apply (reversible_follows uvs).functional _ hi'
              rw [← hstart]
              exact hwalk 0 (Nat.succ_pos len)
            have hlen : len = 0 := by
              by_contra hne
              exact hfirst 1 Nat.one_pos (Nat.pos_of_ne_zero hne) (hsecond.trans hzero)
            rw [hlen] at hsize
            exact if_pos hsize
      · obtain ⟨code, hcode, hne⟩ :=
          exists_followCycle_of_not hlength hi (not_exists.mp hfollows) rounds n
        rw [hcode, Option.some.injEq]
        apply iff_of_false hne
        rintro ⟨len, hlen, hsize, w, hstart, hwalk, hend, hfirst⟩
        apply hfollows
        exact ⟨w 1, hstart ▸ hwalk 0 (Nat.succ_pos len)⟩

/-- From the first endpoint as many rounds as there are edges are enough. -/
theorem followCycle_ne_none (hlength : uvs.length = 2 * size) (hpos : 0 < size) :
    followCycle size uvs size 0 0 ≠ none := by
  intro h
  obtain ⟨w, hstart, hwalk, hfirst⟩ :=
    exists_walk_of_followCycle_eq_none hlength (by omega) h
  have hlt : ∀ t ≤ size, w t < 2 * size := by
    intro t ht
    cases t with
    | zero =>
        rw [hstart]
        omega
    | succ t => exact (hwalk t ht).lt hlength
  have hcard := (reversible_follows uvs).two_mul_le_card hwalk
    (fun t ht hle heq => hfirst t ht hle (heq.trans hstart)) (Finset.range (2 * size))
    (fun t ht => ⟨Finset.mem_range.mpr (hlt t ht), Finset.mem_range.mpr (xor_one_lt (hlt t ht))⟩)
  rw [Finset.card_range] at hcard
  omega

end Follow

/-! ## Reading the endpoints -/

section Read

def endpointsOf (edges : List UInt32) : List UInt32 :=
  edges.flatMap fun edge => [leftNode sips edge, rightNode sips edge]

variable {sips}

theorem length_endpointsOf (edges : List UInt32) :
    (endpointsOf sips edges).length = 2 * edges.length := by
  induction edges with
  | nil => rfl
  | cons edge rest ih =>
      rw [endpointsOf, List.flatMap_cons, List.length_append, ← endpointsOf, ih]
      simp only [List.length_cons, List.length_nil]
      omega

theorem endpointsOf_left (edges : List UInt32) (n : Nat) :
    (endpointsOf sips edges)[2 * n]? = edges[n]?.map (leftNode sips) := by
  induction edges generalizing n with
  | nil => rfl
  | cons edge rest ih =>
      cases n with
      | zero => rfl
      | succ n => exact ih n

theorem endpointsOf_right (edges : List UInt32) (n : Nat) :
    (endpointsOf sips edges)[2 * n + 1]? = edges[n]?.map (rightNode sips) := by
  induction edges generalizing n with
  | nil => rfl
  | cons edge rest ih =>
      cases n with
      | zero => rfl
      | succ n => exact ih n

def xorAll (nodes : List UInt32) : UInt32 := nodes.foldr (· ^^^ ·) 0

theorem xorAll_append (nodes nodes' : List UInt32) :
    xorAll (nodes ++ nodes') = xorAll nodes ^^^ xorAll nodes' := by
  induction nodes with
  | nil => simp [xorAll]
  | cons node rest ih =>
      change node ^^^ xorAll (rest ++ nodes') = node ^^^ xorAll rest ^^^ xorAll nodes'
      rw [ih, UInt32.xor_assoc]

theorem xorAll_perm {nodes nodes' : List UInt32} (h : nodes.Perm nodes') :
    xorAll nodes = xorAll nodes' := by
  apply h.foldr_eq' _ 0
  intro x _ y _ z
  rw [← UInt32.xor_assoc, ← UInt32.xor_assoc, UInt32.xor_comm x y]

theorem readEndpoints_eq_ok_iff (previous : Option UInt32) (edges : List UInt32)
    (endpoints result : Endpoints) :
    readEndpoints sips previous edges endpoints = .ok result ↔
      (∀ edge ∈ edges, edge ≤ edgeMask) ∧ (previous.toList ++ edges).IsChain (· < ·) ∧
        result = { xor0 := endpoints.xor0 ^^^ xorAll (edges.map (leftNode sips))
                   xor1 := endpoints.xor1 ^^^ xorAll (edges.map (rightNode sips))
                   uvs := endpoints.uvs ++ endpointsOf sips edges } := by
  induction edges generalizing previous endpoints with
  | nil =>
      have hchain : previous.toList.IsChain (· < ·) := by
        cases previous <;> simp
      simp [readEndpoints, hchain, xorAll, endpointsOf, eq_comm]
  | cons edge rest ih =>
      have hchain : (previous.toList ++ edge :: rest).IsChain (· < ·) ↔
          ¬ previous.any (edge ≤ ·) ∧ (edge :: rest).IsChain (· < ·) := by
        cases previous with
        | none => simp
        | some last => simp
      rw [readEndpoints, hchain, List.forall_mem_cons]
      by_cases hbig : edgeMask < edge
      · rw [if_pos hbig]
        apply iff_of_false
        · intro h
          cases h
        · rintro ⟨⟨hle, -⟩, -⟩
          exact absurd hbig (UInt32.not_lt.mpr hle)
      · rw [if_neg hbig]
        by_cases hsmall : previous.any (edge ≤ ·)
        · rw [if_pos hsmall]
          apply iff_of_false
          · intro h
            cases h
          · rintro ⟨-, ⟨hnot, -⟩, -⟩
            exact hnot hsmall
        · rw [if_neg hsmall, ih]
          simp only [UInt32.not_lt.mp hbig, hsmall, Option.toList_some, List.singleton_append,
            true_and, not_false_eq_true, List.map_cons, Bool.false_eq_true]
          have hxor : ∀ node acc : UInt32, ∀ nodes,
              acc ^^^ node ^^^ xorAll nodes = acc ^^^ xorAll (node :: nodes) := by
            intro node acc nodes
            rw [UInt32.xor_assoc]
            rfl
          have huvs : endpoints.uvs ++ [leftNode sips edge, rightNode sips edge] ++
              endpointsOf sips rest =
                endpoints.uvs ++ endpointsOf sips (edge :: rest) := by
            rw [List.append_assoc]
            rfl
          rw [hxor, hxor, huvs]

theorem readEndpoints_ne_error_ok (previous : Option UInt32) (edges : List UInt32)
    (endpoints : Endpoints) : readEndpoints sips previous edges endpoints ≠ .error .ok := by
  induction edges generalizing previous endpoints with
  | nil => simp [readEndpoints]
  | cons edge rest ih =>
      rw [readEndpoints]
      split
      · simp
      · split
        · simp
        · exact ih _ _

end Read

/-! ## Cycles are what is accepted -/

section Cycle

variable {sips} {size : Nat} {edges : Vector UInt32 size}

/-- `e'` is the only other edge on the node of `e`. -/
def IsOnlyOther (node : Fin size → UInt32) (e e' : Fin size) : Prop :=
  (e' ≠ e ∧ node e' = node e) ∧ ∀ e'', e'' ≠ e → node e'' = node e → e'' = e'

theorem toList_getElem? (e : Fin size) : edges.toList[e.val]? = some edges[e] := by
  rw [List.getElem?_eq_getElem (by simp)]
  simp

theorem length_uvs : (endpointsOf sips edges.toList).length = 2 * size := by
  rw [length_endpointsOf, Vector.length_toList]

theorem isMatch_left_iff {e : Fin size} {k : Nat} :
    IsMatch (endpointsOf sips edges.toList) (2 * e) k ↔
      ∃ e' : Fin size, k = 2 * e' ∧ e' ≠ e ∧ leftNode sips edges[e'] = leftNode sips edges[e] := by
  rw [IsMatch, length_uvs]
  constructor
  · rintro ⟨hlt, hne, hparity, heq⟩
    obtain ⟨e', rfl⟩ : ∃ e' : Fin size, k = 2 * e' :=
      ⟨⟨k / 2, by omega⟩, by change k = 2 * (k / 2); omega⟩
    rw [endpointsOf_left, endpointsOf_left, toList_getElem?, toList_getElem?] at heq
    exact ⟨e', rfl, fun h => hne (h ▸ rfl), Option.some.inj heq⟩
  · rintro ⟨e', rfl, hne, heq⟩
    refine ⟨by omega, fun h => hne (Fin.ext (by omega)), by omega, ?_⟩
    rw [endpointsOf_left, endpointsOf_left, toList_getElem?, toList_getElem?]
    exact congrArg some heq

theorem isMatch_right_iff {e : Fin size} {k : Nat} :
    IsMatch (endpointsOf sips edges.toList) (2 * e + 1) k ↔
      ∃ e' : Fin size, k = 2 * e' + 1 ∧ e' ≠ e ∧
        rightNode sips edges[e'] = rightNode sips edges[e] := by
  rw [IsMatch, length_uvs]
  constructor
  · rintro ⟨hlt, hne, hparity, heq⟩
    obtain ⟨e', rfl⟩ : ∃ e' : Fin size, k = 2 * e' + 1 :=
      ⟨⟨k / 2, by omega⟩, by change k = 2 * (k / 2) + 1; omega⟩
    rw [endpointsOf_right, endpointsOf_right, toList_getElem?, toList_getElem?] at heq
    exact ⟨e', rfl, fun h => hne (h ▸ rfl), Option.some.inj heq⟩
  · rintro ⟨e', rfl, hne, heq⟩
    refine ⟨by omega, fun h => hne (Fin.ext (by omega)), by omega, ?_⟩
    rw [endpointsOf_right, endpointsOf_right, toList_getElem?, toList_getElem?]
    exact congrArg some heq

theorem follows_left_iff {e e' : Fin size} :
    Follows (endpointsOf sips edges.toList) (2 * e) (2 * e' + 1) ↔
      IsOnlyOther (fun n => leftNode sips edges[n]) e e' := by
  have hval : ∀ {x y : Fin size}, 2 * x.val = 2 * y.val → x = y := fun h => Fin.ext (by omega)
  rw [Follows, two_mul_add_one_xor_one, IsOnlyMatch, isMatch_left_iff]
  constructor
  · rintro ⟨⟨x, hx, hne, heq⟩, honly⟩
    obtain rfl := hval hx
    refine ⟨⟨hne, heq⟩, fun x' hne' heq' => hval ?_⟩
    exact honly _ (isMatch_left_iff.mpr ⟨x', rfl, hne', heq'⟩)
  · rintro ⟨⟨hne, heq⟩, honly⟩
    refine ⟨⟨e', rfl, hne, heq⟩, fun k hk => ?_⟩
    obtain ⟨x, rfl, hne', heq'⟩ := isMatch_left_iff.mp hk
    rw [honly x hne' heq']

theorem follows_right_iff {e e' : Fin size} :
    Follows (endpointsOf sips edges.toList) (2 * e + 1) (2 * e') ↔
      IsOnlyOther (fun n => rightNode sips edges[n]) e e' := by
  have hval : ∀ {x y : Fin size}, 2 * x.val + 1 = 2 * y.val + 1 → x = y :=
    fun h => Fin.ext (by omega)
  rw [Follows, two_mul_xor_one, IsOnlyMatch, isMatch_right_iff]
  constructor
  · rintro ⟨⟨x, hx, hne, heq⟩, honly⟩
    obtain rfl := hval hx
    refine ⟨⟨hne, heq⟩, fun x' hne' heq' => hval ?_⟩
    exact honly _ (isMatch_right_iff.mpr ⟨x', rfl, hne', heq'⟩)
  · rintro ⟨⟨hne, heq⟩, honly⟩
    refine ⟨⟨e', rfl, hne, heq⟩, fun k hk => ?_⟩
    obtain ⟨x, rfl, hne', heq'⟩ := isMatch_right_iff.mp hk
    rw [honly x hne' heq']

/-- A closed walk over all the edges arranges them in a cycle. -/
theorem exists_isCycle_of_walk {w : ℕ → ℕ} {len : ℕ} (hsize : len + 1 = size) (hstart : w 0 = 0)
    (hwalk : IsWalk (Follows (endpointsOf sips edges.toList)) w (len + 1))
    (hend : w (len + 1) = 0) (hfirst : ∀ t, 0 < t → t ≤ len → w t ≠ 0) :
    ∃ m, ∃ a b : Fin (m + 1) → Fin size,
      IsCycle (fun n => leftNode sips edges[n]) (fun n => rightNode sips edges[n]) a b := by
  have hparity : ∀ t ≤ len + 1, w t % 2 = t % 2 := by
    intro t
    induction t with
    | zero =>
        intro _
        rw [hstart]
    | succ t ih =>
        intro ht
        have hnext := (hwalk t ht).mod_two
        have hlast := ih (Nat.le_of_succ_le ht)
        omega
  have hlt : ∀ t ≤ len + 1, w t < 2 * size := by
    intro t ht
    cases t with
    | zero =>
        rw [hstart]
        omega
    | succ t => exact (hwalk t ht).lt length_uvs
  obtain ⟨m, hm⟩ : ∃ m, len + 1 = 2 * (m + 1) := by
    have heven := hparity (len + 1) le_rfl
    rw [hend] at heven
    exact ⟨len / 2, by omega⟩
  let e : ℕ → Fin size := fun t => ⟨w t / 2 % size, Nat.mod_lt _ (by omega)⟩
  have he : ∀ t ≤ len + 1, (e t).val = w t / 2 := by
    intro t ht
    have hbound := hlt t ht
    exact Nat.mod_eq_of_lt (by omega)
  have heven : ∀ t, 2 * t ≤ len + 1 → w (2 * t) = 2 * (e (2 * t)).val := by
    intro t ht
    have hmod := hparity (2 * t) ht
    rw [he _ ht]
    omega
  have hodd : ∀ t, 2 * t + 1 ≤ len + 1 → w (2 * t + 1) = 2 * (e (2 * t + 1)).val + 1 := by
    intro t ht
    have hmod := hparity (2 * t + 1) ht
    rw [he _ ht]
    omega
  have hinj : ∀ s t, s ≤ len → t ≤ len → e s = e t → s = t := by
    intro s t hs ht heq
    have hval : w s / 2 = w t / 2 := by
      rw [← he s (by omega), ← he t (by omega), heq]
    have hfirst' : ∀ t, 0 < t → t ≤ len → w t ≠ w 0 := fun t ht hle =>
      hstart.symm ▸ hfirst t ht hle
    apply (reversible_follows _).injOn (hwalk.mono (Nat.le_succ len)) hfirst' hs ht
    by_contra hne
    apply (reversible_follows _).ne_opposite_of_le hwalk (Nat.le_succ_of_le hs)
      (Nat.le_succ_of_le ht)
    rcases Nat.even_or_odd' (w t) with ⟨x, hx | hx⟩
    · rw [hx, two_mul_xor_one]
      omega
    · rw [hx, two_mul_add_one_xor_one]
      omega
  have hleft : ∀ t : Fin (m + 1),
      IsOnlyOther (fun n => leftNode sips edges[n]) (e (2 * t)) (e (2 * t + 1)) := by
    intro t
    rw [← follows_left_iff, ← heven t (by omega), ← hodd t (by omega)]
    exact hwalk (2 * t) (by omega)
  have hright : ∀ t : Fin (m + 1),
      IsOnlyOther (fun n => rightNode sips edges[n]) (e (2 * t + 1)) (e (2 * (t + 1))) := by
    intro t
    rw [← follows_right_iff, ← hodd t (by omega), ← heven (t + 1) (by omega)]
    exact hwalk (2 * t + 1) (by omega)
  refine ⟨m, fun t => e (2 * t), fun t => e (2 * t + 1), ?_, ?_, ?_, ?_, ?_⟩
  · rw [Fintype.bijective_iff_injective_and_card]
    constructor
    · rintro (s | s) (t | t) heq
      · have hsame := hinj _ _ (by omega) (by omega) heq
        exact congrArg Sum.inl (Fin.ext (by omega))
      · have hsame := hinj _ _ (by omega) (by omega) heq
        omega
      · have hsame := hinj _ _ (by omega) (by omega) heq
        omega
      · have hsame := hinj _ _ (by omega) (by omega) heq
        exact congrArg Sum.inr (Fin.ext (by omega))
    · rw [Fintype.card_sum, Fintype.card_fin, Fintype.card_fin]
      omega
  · exact fun t => (hleft t).1.2.symm
  · intro t
    have hnext : e (2 * ((t + 1 : Fin (m + 1)) : ℕ)) = e (2 * (t + 1)) := by
      rcases Nat.lt_or_ge (t + 1) (m + 1) with hlt' | hge
      · rw [Fin.val_add_one_of_lt' hlt']
      · have hlast : t = Fin.last m := Fin.ext (by rw [Fin.val_last]; omega)
        rw [hlast, Fin.last_add_one, Fin.val_last]
        apply Fin.ext
        rw [he _ (by simp), he _ (by omega), ← hm, hend]
        exact congrArg (· / 2) hstart
    rw [hnext]
    exact (hright t).1.2.symm
  · intro s t heq
    by_contra hne
    have hother : e (2 * t) ≠ e (2 * s) := fun h =>
      hne (Fin.ext (by have := hinj _ _ (by omega) (by omega) h; omega))
    have hsame := hinj _ _ (by omega) (by omega) ((hleft s).2 _ hother heq.symm)
    omega
  · intro s t heq
    by_contra hne
    have hother : e (2 * t + 1) ≠ e (2 * s + 1) := fun h =>
      hne (Fin.ext (by have := hinj _ _ (by omega) (by omega) h; omega))
    have hnext := (hright s).2 _ hother heq.symm
    rcases Nat.lt_or_ge (2 * (s + 1)) (len + 1) with hlt' | hge
    · have hsame := hinj _ _ (by omega) (by omega) hnext
      omega
    · have hlast : e (2 * (s + 1)) = e 0 := by
        have hround : 2 * (s.val + 1) = len + 1 := by omega
        apply Fin.ext
        rw [he _ (by omega), he _ (by omega), hround, hend, hstart]
      have hsame := hinj _ _ (by omega) (by omega) (hnext.trans hlast)
      omega

/-- In a cycle the walk goes around it and comes back to its first edge. -/
theorem exists_walk_of_isCycle {m : ℕ} {a b : Fin (m + 1) → Fin size}
    (hcycle : IsCycle (fun n => leftNode sips edges[n]) (fun n => rightNode sips edges[n]) a b)
    (hzero : (a 0).val = 0) :
    ∃ w : ℕ → ℕ, w 0 = 0 ∧
      IsWalk (Follows (endpointsOf sips edges.toList)) w (2 * (m + 1)) ∧
      w (2 * (m + 1)) = 0 ∧ ∀ t, 0 < t → t < 2 * (m + 1) → w t ≠ 0 := by
  let place : ℕ → Fin (m + 1) := fun t => ⟨t % (m + 1), Nat.mod_lt _ (Nat.succ_pos m)⟩
  have hplace : ∀ t, place (t + 1) = place t + 1 := by
    intro t
    apply Fin.ext
    rw [Fin.val_add]
    change (t + 1) % (m + 1) = (t % (m + 1) + 1 % (m + 1)) % (m + 1)
    exact Nat.add_mod t 1 (m + 1)
  have hleft : ∀ s, IsOnlyOther (fun n => leftNode sips edges[n]) (a s) (b s) := by
    intro s
    refine ⟨⟨(hcycle.a_ne_b s s).symm, (hcycle.left_eq s).symm⟩, fun e hne heq => ?_⟩
    exact (hcycle.eq_or_eq_of_left heq).resolve_left hne
  have hright : ∀ s, IsOnlyOther (fun n => rightNode sips edges[n]) (b s) (a (s + 1)) := by
    intro s
    refine ⟨⟨hcycle.a_ne_b (s + 1) s, (hcycle.right_eq s).symm⟩, fun e hne heq => ?_⟩
    exact (hcycle.eq_or_eq_of_right heq).resolve_left hne
  let w : ℕ → ℕ := fun t =>
    if t % 2 = 0 then 2 * (a (place (t / 2))).val else 2 * (b (place (t / 2))).val + 1
  have heven : ∀ t, w (2 * t) = 2 * (a (place t)).val := by
    intro t
    simp [w]
  have hodd : ∀ t, w (2 * t + 1) = 2 * (b (place t)).val + 1 := by
    intro t
    have hhalf : (2 * t + 1) / 2 = t := by omega
    simp [w, hhalf]
  have hround : place (m + 1) = 0 := Fin.ext (Nat.mod_self (m + 1))
  have hstart : place 0 = 0 := rfl
  refine ⟨w, ?_, ?_, ?_, ?_⟩
  · rw [← Nat.mul_zero 2, heven, hstart, hzero]
  · intro t _
    rcases Nat.even_or_odd' t with ⟨s, rfl | rfl⟩
    · rw [heven, hodd]
      exact follows_left_iff.mpr (hleft (place s))
    · have hnext : 2 * s + 1 + 1 = 2 * (s + 1) := by omega
      rw [hodd, hnext, heven, hplace]
      exact follows_right_iff.mpr (hright (place s))
  · rw [heven, hround, hzero]
  · intro t ht hlt hw
    rcases Nat.even_or_odd' t with ⟨s, rfl | rfl⟩
    · rw [heven] at hw
      have hsame : place s = 0 := by
        apply hcycle.a_injective
        apply Fin.ext
        omega
      have hmod : s % (m + 1) = 0 := congrArg Fin.val hsame
      rw [Nat.mod_eq_of_lt (by omega)] at hmod
      omega
    · rw [hodd] at hw
      omega

/-- The nodes of a cycle come in pairs, so that nothing is left of their sum. -/
theorem xorAll_eq_zero {m : ℕ} {a b : Fin (m + 1) → Fin size} {node : Fin size → UInt32}
    (honce : Function.Bijective (Sum.elim a b)) (next : Equiv.Perm (Fin (m + 1)))
    (hnode : ∀ t, node (b t) = node (a (next t))) :
    xorAll ((List.finRange size).map node) = 0 := by
  have hedges : (List.finRange size).Perm
      ((List.finRange (m + 1)).map a ++ (List.finRange (m + 1)).map b) := by
    rw [List.perm_ext_iff_of_nodup (List.nodup_finRange size)]
    · intro e
      simp only [List.mem_finRange, List.mem_append, List.mem_map, true_and, true_iff]
      obtain ⟨t | t, ht⟩ := honce.surjective e
      · exact .inl ⟨t, ht⟩
      · exact .inr ⟨t, ht⟩
    · apply List.Nodup.append
      · exact (List.nodup_finRange _).map (honce.injective.comp Sum.inl_injective)
      · exact (List.nodup_finRange _).map (honce.injective.comp Sum.inr_injective)
      · intro e ha hb
        obtain ⟨s, -, hs⟩ := List.mem_map.mp ha
        obtain ⟨t, -, ht⟩ := List.mem_map.mp hb
        have hsame : (.inl s : Fin (m + 1) ⊕ Fin (m + 1)) = .inr t :=
          honce.injective (hs.trans ht.symm)
        cases hsame
  have hpairs : ((List.finRange (m + 1)).map (node ∘ b)).Perm
      ((List.finRange (m + 1)).map (node ∘ a)) := by
    have hnext : ((List.finRange (m + 1)).map next).Perm (List.finRange (m + 1)) := by
      rw [List.perm_ext_iff_of_nodup ((List.nodup_finRange _).map next.injective)
        (List.nodup_finRange _)]
      intro t
      simp only [List.mem_map, List.mem_finRange, true_and, iff_true]
      exact next.surjective t
    have hsame : node ∘ b = (node ∘ a) ∘ next := funext hnode
    rw [hsame, ← List.map_map]
    exact hnext.map _
  rw [xorAll_perm (hedges.map node), List.map_append, List.map_map, List.map_map, xorAll_append,
    xorAll_perm hpairs, UInt32.xor_self]

theorem map_toList (node : UInt32 → UInt32) :
    edges.toList.map node = (List.finRange size).map fun n => node edges[n] := by
  apply List.ext_getElem (by simp)
  intro n hn hn'
  simp

theorem isChain_toList_iff :
    edges.toList.IsChain (· < ·) ↔ ∀ m n : Fin size, m < n → edges[m] < edges[n] := by
  rw [List.isChain_iff_pairwise, List.pairwise_iff_getElem]
  constructor
  · intro h m n hlt
    have hlist := h m n (by simp) (by simp) hlt
    simpa using hlist
  · intro h m n hm hn hlt
    rw [Vector.length_toList] at hm hn
    have hvector := h ⟨m, hm⟩ ⟨n, hn⟩ hlt
    simpa using hvector

theorem forall_mem_toList_iff :
    (∀ edge ∈ edges.toList, edge ≤ edgeMask) ↔ ∀ n : Fin size, edges[n] ≤ edgeMask := by
  constructor
  · intro h n
    apply h
    simp
  · intro h edge hmem
    obtain ⟨n, hn, rfl⟩ := List.getElem_of_mem hmem
    rw [Vector.length_toList] at hn
    have hvector := h ⟨n, hn⟩
    simpa using hvector

theorem IsSolution.xorAll_eq_zero (h : IsSolution sips edges) :
    xorAll (edges.toList.map (leftNode sips)) = 0 ∧
      xorAll (edges.toList.map (rightNode sips)) = 0 := by
  obtain ⟨m, a, b, hcycle⟩ := h.cycle
  rw [map_toList, map_toList]
  constructor
  · apply CortexCuckooCycle.xorAll_eq_zero hcycle.once (Equiv.refl _)
    exact fun t => (hcycle.left_eq t).symm
  · exact CortexCuckooCycle.xorAll_eq_zero hcycle.once (Equiv.addRight 1) hcycle.right_eq

theorem IsSolution.exists_readEndpoints (h : IsSolution sips edges) :
    ∃ endpoints, readEndpoints sips none edges.toList {} = .ok endpoints :=
  ⟨_, (readEndpoints_eq_ok_iff none edges.toList {} _).mpr
    ⟨forall_mem_toList_iff.mpr h.inRange, isChain_toList_iff.mpr h.ascending, rfl⟩⟩

/-- Edges in range that ascend are a solution when the walk from the first endpoint passes
through all of them. -/
theorem followCycle_eq_ok_iff_exists_isCycle (hpos : 0 < size) :
    followCycle size (endpointsOf sips edges.toList) size 0 0 = some .ok ↔
      ∃ m, ∃ a b : Fin (m + 1) → Fin size,
        IsCycle (fun n => leftNode sips edges[n]) (fun n => rightNode sips edges[n]) a b := by
  rw [followCycle_eq_ok_iff length_uvs (by omega)]
  constructor
  · rintro ⟨len, -, hsize, w, hstart, hwalk, hend, hfirst⟩
    exact exists_isCycle_of_walk (by omega) hstart hwalk hend hfirst
  · rintro ⟨m, a, b, hcycle⟩
    obtain ⟨a, b, hcycle, hzero⟩ := hcycle.exists_first ⟨0, hpos⟩
    have hcard := Fintype.card_of_bijective hcycle.once
    rw [Fintype.card_sum, Fintype.card_fin, Fintype.card_fin] at hcard
    obtain ⟨w, hstart, hwalk, hend, hfirst⟩ :=
      exists_walk_of_isCycle hcycle (congrArg Fin.val hzero)
    have hround : 2 * (m + 1) = 2 * m + 1 + 1 := by omega
    rw [hround] at hwalk hend hfirst
    exact ⟨2 * m + 1, by omega, by omega, w, hstart, hwalk, hend,
      fun t ht hle => hfirst t ht (Nat.lt_succ_of_le hle)⟩

/-- The verification ends, and accepts the solutions. -/
theorem exists_verify_and_eq_ok_iff (hpos : 0 < size) :
    (∃ code, verify sips edges = some code) ∧
      (verify sips edges = some .ok ↔ IsSolution sips edges) := by
  rw [verify]
  cases hread : readEndpoints sips none edges.toList {} with
  | error code =>
      refine ⟨⟨code, rfl⟩, iff_of_false ?_ ?_⟩
      · intro h
        exact readEndpoints_ne_error_ok none edges.toList {}
          (hread.trans (by rw [Option.some.inj h]))
      · intro h
        obtain ⟨endpoints, hok⟩ := h.exists_readEndpoints
        rw [hread] at hok
        cases hok
  | ok endpoints =>
      obtain ⟨hrange, hchain, rfl⟩ := (readEndpoints_eq_ok_iff none _ _ _).mp hread
      simp only [UInt32.zero_xor, List.nil_append]
      by_cases hxor : xorAll (edges.toList.map (leftNode sips)) |||
          xorAll (edges.toList.map (rightNode sips)) = 0
      · rw [if_neg (not_not.mpr hxor)]
        refine ⟨Option.ne_none_iff_exists'.mp (followCycle_ne_none length_uvs hpos), ?_⟩
        rw [followCycle_eq_ok_iff_exists_isCycle hpos]
        exact ⟨fun h => ⟨forall_mem_toList_iff.mp hrange, isChain_toList_iff.mp hchain, h⟩,
          IsSolution.cycle⟩
      · rw [if_pos hxor]
        refine ⟨⟨_, rfl⟩, iff_of_false (by simp) fun h => hxor ?_⟩
        exact UInt32.or_eq_zero_iff.mpr h.xorAll_eq_zero

end Cycle

/-- The verification of a solution ends. It accepts the edges that are in range, ascend and form
one cycle through all of them. -/
theorem cuckarooCortexVerify_iff (edges : Vector UInt32 proofSize) (keys : SiphashKeys) :
    (∃ code, cuckarooCortexVerify edges keys = some code) ∧
      (cuckarooCortexVerify edges keys = some .ok ↔ IsSolution (sipblock keys) edges) :=
  exists_verify_and_eq_ok_iff (by decide)

end Miningcore.CortexCuckooCycle
