import Miningcore.Foundation.MerkleRoot
import Miningcore.Persistence.Repositories

/-!
# Merkle trees

The steps are computed from the transaction hashes alone, with a placeholder for
the coinbase. The root for a coinbase is the fold of the steps.
-/

namespace Miningcore

open Foundation

abbrev Bytes := List UInt8

namespace MerkleTree

variable (doubleDigest : Bytes → Bytes)

def merkleJoin (hash1 hash2 : Bytes) : Bytes := doubleDigest (hash1 ++ hash2)

/-- An element of the list, which must be there and not be the placeholder. -/
def hashAt (L : List (Option Bytes)) (i : Nat) : Except Exception Bytes :=
  match L[i]? with
  | none => .error .indexOutOfRange
  | some none => .error .nullReference
  | some (some hash) => .ok hash

/-- The inner loop, from the index `i` on. -/
def joinPairs (L : List (Option Bytes)) (Ll i : Nat) : Except Exception (List Bytes) :=
  if i < Ll then
    match hashAt L i, hashAt L (i + 1), joinPairs L Ll (i + 2) with
    | .ok hash1, .ok hash2, .ok Ld => .ok (merkleJoin doubleDigest hash1 hash2 :: Ld)
    | .error e, _, _ => .error e
    | _, .error e, _ => .error e
    | _, _, .error e => .error e
  else .ok []
termination_by Ll - i

theorem length_of_joinPairs {L : List (Option Bytes)} {Ll i : Nat} {Ld : List Bytes}
    (h : joinPairs doubleDigest L Ll i = .ok Ld) : Ld.length = (Ll - i + 1) / 2 := by
  rw [joinPairs] at h
  split at h
  · split at h
    · rename_i rest _ _ hrest
      cases h
      rw [List.length_cons, length_of_joinPairs hrest]
      omega
    · cases h
    · cases h
    · cases h
  · cases h
    rw [List.length_nil]
    omega
termination_by Ll - i

/-- The outer loop. The list starts with the placeholder. -/
def calculateStepsFrom (L : List (Option Bytes)) : Except Exception (List Bytes) :=
  let Ll := L.length
  if _hempty : Ll ≤ 1 then .ok []
  else match hashAt L 1 with
    | .error e => .error e
    | .ok step =>
        let L := if Ll % 2 = 1 then L ++ L.getLast?.toList else L
        match _hpairs : joinPairs doubleDigest L Ll 2 with
        | .error e => .error e
        | .ok Ld =>
            match calculateStepsFrom (none :: Ld.map some) with
            | .error e => .error e
            | .ok steps => .ok (step :: steps)
termination_by L.length
decreasing_by
  have hlength := length_of_joinPairs doubleDigest _hpairs
  simp only [List.length_cons, List.length_map]
  omega

def calculateSteps (hashList : List Bytes) : Except Exception (List Bytes) :=
  calculateStepsFrom doubleDigest (none :: hashList.map some)

def withFirst (steps : List Bytes) (first : Bytes) : Bytes :=
  steps.foldl (fun first step => doubleDigest (first ++ step)) first

/-! ## The loops stay inside the list -/

variable {doubleDigest}

theorem hashAt_append (pre : List (Option Bytes)) (hash : Bytes) (rest : List (Option Bytes)) :
    hashAt (pre ++ some hash :: rest) pre.length = .ok hash := by
  simp [hashAt]

/-- From the end of `pre` on, the pairs are those of the level above. An odd number of hashes is
followed by a copy of the last one. -/
theorem joinPairs_eq (hashes : List Bytes) (pre extra : List (Option Bytes))
    (hextra : hashes.length % 2 = 1 → extra = hashes.getLast?.toList.map some) :
    joinPairs doubleDigest (pre ++ (hashes.map some ++ extra)) (pre.length + hashes.length)
        pre.length =
      .ok (nextLevel (merkleJoin doubleDigest) hashes) := by
  induction hashes using nextLevel.induct generalizing pre with
  | case1 =>
      rw [joinPairs, if_neg (by simp)]
      rfl
  | case2 a =>
      have hextra : extra = [some a] := hextra rfl
      have hfirst : hashAt (pre ++ ([a].map some ++ extra)) pre.length = .ok a :=
        hashAt_append pre a _
      have hsecond : hashAt (pre ++ ([a].map some ++ extra)) (pre.length + 1) = .ok a := by
        rw [hextra]
        have hshift := hashAt_append (pre ++ [some a]) a []
        rw [List.length_append, List.append_assoc] at hshift
        exact hshift
      rw [joinPairs, if_pos (by simp), hfirst, hsecond, joinPairs, if_neg (by simp)]
      rfl
  | case3 a b rest ih =>
      have hfirst : hashAt (pre ++ ((a :: b :: rest).map some ++ extra)) pre.length = .ok a :=
        hashAt_append pre a _
      have hshift : pre ++ ((a :: b :: rest).map some ++ extra) =
          pre ++ [some a] ++ some b :: (rest.map some ++ extra) := by simp
      have hsecond : hashAt (pre ++ ((a :: b :: rest).map some ++ extra)) (pre.length + 1) =
          .ok b := by
        rw [hshift]
        have hsecond := hashAt_append (pre ++ [some a]) b (rest.map some ++ extra)
        rwa [List.length_append] at hsecond
      have hrest : rest.length % 2 = 1 → extra = rest.getLast?.toList.map some := by
        intro hodd
        rw [hextra (by simp only [List.length_cons]; omega)]
        cases rest with
        | nil => simp at hodd
        | cons c rest => simp
      have hlater := ih (pre ++ [some a, some b]) hrest
      have hlist : pre ++ [some a, some b] ++ (rest.map some ++ extra) =
          pre ++ ((a :: b :: rest).map some ++ extra) := by simp
      have hbound : (pre ++ [some a, some b]).length + rest.length =
          pre.length + (a :: b :: rest).length := by
        simp only [List.length_append, List.length_cons, List.length_nil]
        omega
      rw [hlist, hbound, List.length_append] at hlater
      rw [joinPairs, if_pos (by simp), hfirst, hsecond]
      have hnext : pre.length + [some a, some b].length = pre.length + 2 := rfl
      rw [← hnext, hlater]
      rfl

/-- The steps are the branch of the coinbase: the loop ends, and every index it reads is in the
list. -/
theorem calculateStepsFrom_eq (hashes : List Bytes) :
    calculateStepsFrom doubleDigest (none :: hashes.map some) =
      .ok (merkleBranch (merkleJoin doubleDigest) hashes) := by
  induction hashes using merkleBranch.induct (merkleJoin doubleDigest) with
  | case1 =>
      rw [calculateStepsFrom, merkleBranch]
      simp
  | case2 second rest ih =>
      have hstep : hashAt (none :: (second :: rest).map some) 1 = .ok second :=
        hashAt_append [none] second (rest.map some)
      have hpairs : joinPairs doubleDigest
          (if (none :: (second :: rest).map some).length % 2 = 1 then
            (none :: (second :: rest).map some) ++
              (none :: (second :: rest).map some).getLast?.toList
          else none :: (second :: rest).map some)
          (none :: (second :: rest).map some).length 2 =
            .ok (nextLevel (merkleJoin doubleDigest) rest) := by
        have hbound : (none :: (second :: rest).map some).length =
            [none, some second].length + rest.length := by
          simp only [List.length_cons, List.length_map, List.length_nil]
          omega
        split
        · rename_i hodd
          have hlast : (none :: (second :: rest).map some).getLast?.toList =
              rest.getLast?.toList.map some := by
            cases rest with
            | nil => simp at hodd
            | cons third rest =>
                rw [List.map_cons, List.getLast?_cons_cons, List.map_cons, List.getLast?_cons_cons,
                  ← List.map_cons, List.getLast?_map]
                cases (third :: rest).getLast? <;> rfl
          rw [hlast, hbound]
          exact joinPairs_eq rest [none, some second] _ fun _ => rfl
        · rename_i heven
          have happend : none :: (second :: rest).map some =
              [none, some second] ++ (rest.map some ++ []) := by simp
          rw [hbound, happend]
          apply joinPairs_eq
          intro hodd
          rw [hbound] at heven
          simp only [List.length_cons, List.length_nil] at heven
          omega
      rw [calculateStepsFrom, dif_neg (by simp), hstep]
      simp only
      split
      · rename_i e herror
        rw [hpairs] at herror
        cases herror
      · rename_i Ld hok
        rw [hpairs] at hok
        cases hok
        rw [ih, merkleBranch]

/-- Whatever the hash function, the steps of the transaction hashes fold to the Merkle root of
the coinbase and the transactions. -/
theorem withFirst_calculateSteps (doubleDigest : Bytes → Bytes) (hashList : List Bytes)
    (first : Bytes) :
    ∃ steps, calculateSteps doubleDigest hashList = .ok steps ∧
      merkleRoot (merkleJoin doubleDigest) (first :: hashList) =
        some (withFirst doubleDigest steps first) :=
  ⟨_, calculateStepsFrom_eq hashList, merkleRoot_cons _ first hashList⟩

end MerkleTree

end Miningcore
