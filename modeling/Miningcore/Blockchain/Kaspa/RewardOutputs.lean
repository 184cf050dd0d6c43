import Miningcore.Blockchain.Kaspa.DuplicateRows
import Miningcore.Foundation.ValueSplit

/-!
# Outputs behind the rewards

The reward of a block is the sum of some coinbase outputs: those of the children
that merge it, or those of its own coinbase when no child pays. The own coinbase
pays for the blocks that the block merges.
-/

namespace Miningcore

namespace KaspaPayoutHandler

open Foundation Kaspad

/-- A block DAG as the node reports it, and how many blocks there are from a block on. -/
structure Dag where
  blocks : List (String × RpcBlock)
  counts : String → Option Nat

/-- An output of the coinbase of a block. -/
abbrev OutputId := String × Nat

namespace Dag

variable (dag : Dag)

def find (hash : String) : Option RpcBlock :=
  (dag.blocks.find? fun block => block.1 = hash).map Prod.snd

def node : Node where
  getBlock hash := some <|
    match dag.find hash with
    | none => { errorMessage := "block not found" }
    | some block => { block := some block }
  getBlocks := dag.counts

/-- Hashes are distinct, children are listed once, and one chain block at most has a block among
its blues. -/
structure WellFormed : Prop where
  nodup : (dag.blocks.map Prod.fst).Nodup
  nodup_children : ∀ block ∈ dag.blocks, block.2.childrenHashes.Nodup
  one_merger : ∀ hash, ∀ block ∈ dag.blocks, ∀ block' ∈ dag.blocks,
    block.2.isChainBlock → block'.2.isChainBlock → hash ∈ block.2.mergeSetBluesHashes →
      hash ∈ block'.2.mergeSetBluesHashes → block.1 = block'.1

variable (config : KaspaClassifyConfig)

/-- The positions of the outputs of a coinbase that go to the pool. -/
def poolPositions (coinbase : RpcTransaction) : List Nat :=
  (List.range coinbase.outputs.length).filter fun position =>
    ((coinbase.outputs[position]?).bind (poolAmount config)).isSome

/-- The amount of an output that goes to the pool. -/
def amount (output : OutputId) : ℚ :=
  (((dag.find output.1).bind RpcBlock.coinbase).bind fun coinbase =>
    (coinbase.outputs[output.2]?).bind (poolAmount config)).getD 0

/-- The outputs of the coinbase of a block that go to the pool. -/
def ownOutputs (hash : String) : List OutputId :=
  match (dag.find hash).bind RpcBlock.coinbase with
  | none => []
  | some coinbase => (poolPositions config coinbase).map fun position => (hash, position)

/-- All coinbase outputs that go to the pool. -/
def poolOutputs : List OutputId :=
  dag.blocks.flatMap fun block => dag.ownOutputs config block.1

/-- The output with which a child on the chain that has a block among its blues pays the pool for
the block. -/
def childOutput (hash childHash : String) : Option OutputId :=
  (dag.find childHash).bind fun child => child.coinbase.bind fun coinbase =>
    if ¬ anyContains child.mergeSetRedsHashes hash ∧
        anyContains child.mergeSetBluesHashes hash ∧ child.isChainBlock then
      (child.mergeSetBluesHashes.idxOf? hash).bind fun position =>
        if ((coinbase.outputs[position]?).bind (poolAmount config)).isSome then
          some (childHash, position)
        else none
    else none

/-- The outputs with which the children pay the pool for a block. -/
def childOutputs (hash : String) : List OutputId :=
  match dag.find hash with
  | none => []
  | some block => block.childrenHashes.filterMap (dag.childOutput config hash)

/-- Whether a block is on the chain and no child pays the pool for it. -/
def PaidByItself (hash : String) : Prop :=
  (dag.find hash).any RpcBlock.isChainBlock = true ∧ dag.childOutputs config hash = []

instance (hash : String) : Decidable (dag.PaidByItself config hash) :=
  inferInstanceAs (Decidable (_ ∧ _))

/-- The outputs that make the reward of a block. -/
def creditedOutputs (hash : String) : List OutputId :=
  if dag.PaidByItself config hash then dag.ownOutputs config hash
  else dag.childOutputs config hash

variable {dag config}

theorem mem_blocks_of_find {hash : String} {block : RpcBlock} (h : dag.find hash = some block) :
    (hash, block) ∈ dag.blocks := by
  obtain ⟨entry, hentry, rfl⟩ := Option.map_eq_some_iff.mp h
  have hhash := List.find?_some hentry
  obtain rfl : entry.1 = hash := of_decide_eq_true hhash
  exact List.mem_of_find?_eq_some hentry

theorem amount_nonneg (output : OutputId) : 0 ≤ dag.amount config output := by
  rw [amount]
  cases h : ((dag.find output.1).bind RpcBlock.coinbase).bind fun coinbase =>
      (coinbase.outputs[output.2]?).bind (poolAmount config) with
  | none => exact le_rfl
  | some value =>
      obtain ⟨coinbase, _, h⟩ := Option.bind_eq_some_iff.mp h
      obtain ⟨output, _, h⟩ := Option.bind_eq_some_iff.mp h
      rw [poolAmount] at h
      split at h
      · cases h
        exact div_nonneg (Nat.cast_nonneg _) (by norm_num [smallestUnit])
      · cases h

/-! ### The reward is the sum of the outputs -/

/-- The amounts at the positions of the pool. -/
theorem sum_poolPositions (coinbase : RpcTransaction) :
    ((poolPositions config coinbase).map fun position =>
      ((coinbase.outputs[position]?).bind (poolAmount config)).getD 0).sum =
        (coinbase.outputs.filterMap (poolAmount config)).sum := by
  obtain ⟨inputs, outputs⟩ := coinbase
  simp only [poolPositions]
  induction outputs using List.reverseRecOn with
  | nil => rfl
  | append_singleton outputs output ih =>
      have hbefore : ∀ position ∈ List.range outputs.length,
          (outputs ++ [output])[position]? = outputs[position]? := fun position hposition =>
        List.getElem?_append_left (List.mem_range.mp hposition)
      have hfilter : (List.range outputs.length).filter (fun position =>
          (((outputs ++ [output])[position]?).bind (poolAmount config)).isSome) =
            (List.range outputs.length).filter fun position =>
              ((outputs[position]?).bind (poolAmount config)).isSome :=
        List.filter_congr fun position hposition => by rw [hbefore position hposition]
      have hmap : ((List.range outputs.length).filter fun position =>
          ((outputs[position]?).bind (poolAmount config)).isSome).map (fun position =>
            (((outputs ++ [output])[position]?).bind (poolAmount config)).getD 0) =
          ((List.range outputs.length).filter fun position =>
            ((outputs[position]?).bind (poolAmount config)).isSome).map fun position =>
              ((outputs[position]?).bind (poolAmount config)).getD 0 :=
        List.map_congr_left fun position hposition => by
          rw [hbefore position (List.mem_of_mem_filter hposition)]
      rw [List.length_append, List.length_singleton, List.range_succ, List.filter_append,
        List.map_append, List.sum_append, hfilter, hmap, ih, List.filterMap_append,
        List.sum_append]
      congr 1
      cases h : poolAmount config output <;> simp [h]

theorem coinbasePays_eq {hash : String} {block : RpcBlock} (h : dag.find hash = some block) :
    coinbasePays config block =
      ((dag.ownOutputs config hash).map (dag.amount config)).sum := by
  rw [coinbasePays, ownOutputs, h, Option.bind_some]
  cases hcoinbase : block.coinbase with
  | none => rfl
  | some coinbase =>
      dsimp only
      rw [List.map_map, ← sum_poolPositions]
      congr 1
      apply List.map_congr_left
      intro position _
      rw [Function.comp_apply, amount, h, Option.bind_some, hcoinbase, Option.bind_some]

/-- What a child pays is the amount of its output. -/
theorem childPays_eq {hash childHash : String} {child : RpcBlock} {pays : Option ℚ}
    (hchild : dag.find childHash = some child) (h : childPays config hash child = .ok pays) :
    pays = (dag.childOutput config hash childHash).map (dag.amount config) := by
  rw [childPays] at h
  rw [childOutput, hchild, Option.bind_some]
  cases hcoinbase : child.coinbase with
  | none =>
      rw [hcoinbase] at h
      cases h
      rfl
  | some coinbase =>
      rw [hcoinbase] at h
      dsimp only at h
      rw [Option.bind_some]
      by_cases hred : anyContains child.mergeSetRedsHashes hash = true
      · rw [if_pos hred] at h
        rw [if_neg fun hcond => hcond.1 hred]
        cases h
        rfl
      · rw [if_neg hred] at h
        by_cases hblue : (anyContains child.mergeSetBluesHashes hash && child.isChainBlock) = true
        · rw [if_pos hblue] at h
          rw [if_pos ⟨hred, Bool.and_eq_true_iff.mp hblue⟩]
          cases hposition : child.mergeSetBluesHashes.idxOf? hash with
          | none =>
              rw [hposition] at h
              cases h
          | some position =>
              rw [hposition, Option.bind_some] at h
              rw [Option.bind_some]
              cases houtput : coinbase.outputs[position]? with
              | none =>
                  rw [houtput] at h
                  cases h
              | some output =>
                  rw [houtput] at h
                  cases h
                  rw [Option.bind_some]
                  have hamount : dag.amount config (childHash, position) =
                      (poolAmount config output).getD 0 := by
                    rw [amount, hchild, Option.bind_some, hcoinbase, Option.bind_some, houtput,
                      Option.bind_some]
                  cases hpays : poolAmount config output with
                  | none => rfl
                  | some value =>
                      rw [hpays] at hamount
                      rw [Option.isSome_some, if_pos rfl, Option.map_some, hamount]
                      rfl
        · rw [if_neg hblue] at h
          rw [if_neg fun hcond => hblue (Bool.and_eq_true_iff.mpr hcond.2)]
          cases h
          rfl

/-- The rewards of the children are the amounts of their outputs. -/
theorem childrenPay_eq {hash : String} {children : List String} {reward : ℚ} {provides : Bool}
    (h : childrenPay config dag.node hash children = .ok (reward, provides)) :
    reward = ((children.filterMap (dag.childOutput config hash)).map (dag.amount config)).sum ∧
      (provides = true ↔ children.filterMap (dag.childOutput config hash) ≠ []) := by
  induction children generalizing reward provides with
  | nil =>
      cases h
      simp
  | cons childHash rest ih =>
      rw [childrenPay, node] at h
      dsimp only at h
      cases hchild : dag.find childHash with
      | none =>
          rw [hchild] at h
          cases h
      | some child =>
          rw [hchild] at h
          dsimp only at h
          cases hpays : childPays config hash child with
          | error e =>
              rw [hpays] at h
              cases h
          | ok pays =>
              have hchildPays := childPays_eq hchild hpays
              cases hrest : childrenPay config dag.node hash rest with
              | error e =>
                  rw [node] at hrest
                  rw [hpays, hrest] at h
                  cases pays <;> cases h
              | ok result =>
                  obtain ⟨rewards, provided⟩ := result
                  obtain ⟨hsum, hprovided⟩ := ih hrest
                  rw [node] at hrest
                  rw [hpays, hrest] at h
                  rw [List.filterMap_cons]
                  cases pays with
                  | none =>
                      rw [Option.map_eq_none_iff.mp hchildPays.symm]
                      cases h
                      exact ⟨hsum, hprovided⟩
                  | some value =>
                      obtain ⟨output, houtput, rfl⟩ := Option.map_eq_some_iff.mp hchildPays.symm
                      rw [houtput]
                      cases h
                      refine ⟨?_, by simp⟩
                      rw [List.map_cons, List.sum_cons, hsum]

theorem blockReward_eq {hash : String} {block : RpcBlock} {reward : ℚ}
    (hblock : dag.find hash = some block)
    (h : blockReward config dag.node hash block = .ok reward) :
    reward = ((dag.creditedOutputs config hash).map (dag.amount config)).sum := by
  rw [blockReward] at h
  split at h
  · cases h
  · rename_i rewards provides hchildren
    obtain ⟨hsum, hprovides⟩ := childrenPay_eq hchildren
    have houtputs : dag.childOutputs config hash =
        block.childrenHashes.filterMap (dag.childOutput config hash) := by
      rw [childOutputs, hblock]
    have hself : dag.PaidByItself config hash ↔
        (block.isChainBlock && !provides) = true := by
      rw [PaidByItself, hblock, Option.any_some, houtputs, Bool.and_eq_true_iff,
        Bool.not_eq_true', ← Bool.not_eq_true, hprovides, not_not]
    rw [creditedOutputs]
    split at h
    · rename_i hown
      obtain ⟨_, hnone⟩ := hself.mpr hown
      rw [if_pos (hself.mpr hown), ← coinbasePays_eq hblock]
      cases h
      rw [hsum, ← houtputs, hnone, List.map_nil, List.sum_nil, zero_add]
    · rename_i hown
      rw [if_neg fun hpaid => hown (hself.mp hpaid), houtputs]
      cases h
      exact hsum

/-! ### Distinct outputs -/

theorem nodup_poolPositions (coinbase : RpcTransaction) :
    (poolPositions config coinbase).Nodup := List.nodup_range.filter _

theorem fst_of_mem_ownOutputs {hash : String} {output : OutputId}
    (h : output ∈ dag.ownOutputs config hash) : output.1 = hash := by
  rw [ownOutputs] at h
  split at h
  · cases h
  · obtain ⟨position, _, rfl⟩ := List.mem_map.mp h
    rfl

theorem nodup_ownOutputs (hash : String) : (dag.ownOutputs config hash).Nodup := by
  rw [ownOutputs]
  split
  · exact List.nodup_nil
  · exact (nodup_poolPositions _).map fun _ _ h => (Prod.mk.inj h).2

theorem childOutput_eq_some {hash childHash : String} {output : OutputId}
    (h : dag.childOutput config hash childHash = some output) :
    output.1 = childHash ∧ ∃ child, dag.find childHash = some child ∧
      child.isChainBlock = true ∧ child.mergeSetBluesHashes.idxOf? hash = some output.2 ∧
        output ∈ dag.ownOutputs config childHash := by
  obtain ⟨child, hchild, h⟩ := Option.bind_eq_some_iff.mp h
  obtain ⟨coinbase, hcoinbase, h⟩ := Option.bind_eq_some_iff.mp h
  split at h
  · rename_i hcond
    obtain ⟨position, hposition, h⟩ := Option.bind_eq_some_iff.mp h
    split at h
    · rename_i hpays
      obtain rfl := Option.some.inj h
      refine ⟨rfl, child, hchild, hcond.2.2, hposition, ?_⟩
      have hlength : position < coinbase.outputs.length := by
        by_contra hge
        rw [List.getElem?_eq_none (not_lt.mp hge)] at hpays
        cases hpays
      rw [ownOutputs, hchild, Option.bind_some, hcoinbase]
      apply List.mem_map_of_mem
      exact List.mem_filter.mpr ⟨List.mem_range.mpr hlength, hpays⟩
    · cases h
  · cases h

theorem mem_blues_of_idxOf? {hashes : List String} {hash : String} {position : Nat}
    (h : hashes.idxOf? hash = some position) : hashes[position]? = some hash := by
  obtain ⟨hlt, hhash, _⟩ := List.idxOf?_eq_some_iff.mp h
  rw [List.getElem?_eq_getElem hlt, hhash]

/-- An output of a child is for one block. -/
theorem eq_of_childOutput_eq {hash hash' childHash : String} {output : OutputId}
    (h : dag.childOutput config hash childHash = some output)
    (h' : dag.childOutput config hash' childHash = some output) : hash = hash' := by
  obtain ⟨_, child, hchild, _, hposition, _⟩ := childOutput_eq_some h
  obtain ⟨_, child', hchild', _, hposition', _⟩ := childOutput_eq_some h'
  obtain rfl : child = child' := Option.some.inj (hchild.symm.trans hchild')
  exact Option.some.inj ((mem_blues_of_idxOf? hposition).symm.trans
    (mem_blues_of_idxOf? hposition'))

theorem mem_childOutputs {hash : String} {output : OutputId}
    (h : output ∈ dag.childOutputs config hash) :
    dag.childOutput config hash output.1 = some output := by
  rw [childOutputs] at h
  split at h
  · cases h
  · obtain ⟨childHash, _, h⟩ := List.mem_filterMap.mp h
    obtain ⟨rfl, _⟩ := childOutput_eq_some h
    exact h

theorem nodup_childOutputs (hdag : dag.WellFormed) (hash : String) :
    (dag.childOutputs config hash).Nodup := by
  rw [childOutputs]
  split
  · exact List.nodup_nil
  · rename_i block hblock
    apply List.Nodup.filterMap _ (hdag.nodup_children _ (mem_blocks_of_find hblock))
    intro childHash childHash' output h h'
    rw [← (childOutput_eq_some h).1, ← (childOutput_eq_some h').1]

/-- One child at most pays for a block. -/
theorem childOutputs_subsingleton (hdag : dag.WellFormed) {hash : String}
    {output output' : OutputId}
    (h : output ∈ dag.childOutputs config hash) (h' : output' ∈ dag.childOutputs config hash) :
    output = output' := by
  have hchild := mem_childOutputs h
  have hchild' := mem_childOutputs h'
  obtain ⟨_, child, hfind, hchain, hposition, _⟩ := childOutput_eq_some hchild
  obtain ⟨_, child', hfind', hchain', hposition', _⟩ := childOutput_eq_some hchild'
  have hsame : output.1 = output'.1 :=
    hdag.one_merger hash _ (mem_blocks_of_find hfind) _ (mem_blocks_of_find hfind') hchain hchain'
      (List.mem_of_getElem? (mem_blues_of_idxOf? hposition))
      (List.mem_of_getElem? (mem_blues_of_idxOf? hposition'))
  rw [← hsame, hchild] at hchild'
  exact Option.some.inj hchild'

theorem nodup_creditedOutputs (hdag : dag.WellFormed) (hash : String) :
    (dag.creditedOutputs config hash).Nodup := by
  rw [creditedOutputs]
  split
  · exact nodup_ownOutputs hash
  · exact nodup_childOutputs hdag hash

theorem creditedOutputs_subset (hash : String) :
    dag.creditedOutputs config hash ⊆ dag.poolOutputs config := by
  have hown : ∀ block, dag.ownOutputs config block ⊆ dag.poolOutputs config := by
    intro hash output houtput
    cases hfind : dag.find hash with
    | none =>
        rw [ownOutputs, hfind] at houtput
        cases houtput
    | some block => exact List.mem_flatMap.mpr ⟨_, mem_blocks_of_find hfind, houtput⟩
  intro output houtput
  rw [creditedOutputs] at houtput
  split at houtput
  · exact hown hash houtput
  · obtain ⟨_, _, _, _, _, hmem⟩ := childOutput_eq_some (mem_childOutputs houtput)
    exact hown _ hmem

end Dag

end KaspaPayoutHandler

end Miningcore
