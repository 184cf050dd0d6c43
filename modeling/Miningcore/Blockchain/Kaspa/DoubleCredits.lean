import Miningcore.Blockchain.Kaspa.RewardOutputs

/-!
# Outputs credited twice

A chain block whose own coinbase is its reward has outputs in it for the blocks
it merges. Rows of one block that tie for the earliest share all its outputs.
There is no other way to credit an output twice.
-/

namespace Miningcore

namespace KaspaPayoutHandler

open Foundation Kaspad BlockRepository

variable (config : KaspaClassifyConfig) (pool : PoolConfig) (rows : List Block) (dag : Dag)

/-- A pending row of a block that the node has, that has matured and that no earlier row records. -/
structure Due (row : Block) (hash : String) : Prop where
  pending : row ∈ getPendingBlocksForPool rows pool.id
  recorded : row.hash = some hash
  earliest : IsEarliest pool row.blockHeight hash rows row
  known : (dag.find hash).isSome
  matured : 1 ≤ confirmationProgress config dag.node hash row

/-- Some output for the block, or of it when no child pays, is worth something to the pool. -/
def PaysPool (hash : String) : Prop :=
  ∃ output ∈ dag.creditedOutputs config hash, 0 < dag.amount config output

/-- No two due rows have one hash that pays the pool, and no due row's block that pays for itself is
the child that pays for the block of a due row. -/
structure PaidApart : Prop where
  blocks : ∀ row row' hash, Due config pool rows dag row hash → Due config pool rows dag row' hash →
    PaysPool config dag hash → row.id = row'.id
  parents : ∀ row row' hash hash' position, Due config pool rows dag row hash →
    Due config pool rows dag row' hash' → dag.PaidByItself config hash' →
    (hash', position) ∈ dag.childOutputs config hash →
    ¬ 0 < dag.amount config (hash', position)

/-- The outputs that make the reward of a classified block. -/
def outputsOf (block : Block) : List OutputId :=
  match block.hash with
  | none => []
  | some hash => dag.creditedOutputs config hash

/-- No output is in the rewards of two confirmed blocks, and the rewards are covered by the outputs
for the pool. -/
structure CreditsOnce (results : List Block) : Prop where
  disjoint : ∀ block ∈ results, ∀ block' ∈ results, block.status = .confirmed →
    block'.status = .confirmed → block.id ≠ block'.id →
      List.Disjoint (outputsOf config dag block) (outputsOf config dag block')
  covered : ((results.filter fun block => block.status = .confirmed).map Block.reward).sum ≤
    ((dag.poolOutputs config).map (dag.amount config)).sum

variable {config pool rows dag} {pending results : List Block}

theorem classifyBlock_of_classifyBlocks {node : Block → Node}
    (h : classifyBlocks config pool rows node pending = .ok results) {row : Block}
    (hrow : row ∈ pending) :
    ∃ verdict?, classifyBlock config pool rows (node row) row = .ok verdict? := by
  induction pending generalizing results with
  | nil => cases hrow
  | cons block rest ih =>
      rw [classifyBlocks] at h
      cases hblock : classifyBlock config pool rows (node block) block with
      | error e =>
          rw [hblock] at h
          cases h
      | ok verdict? =>
          cases hrest : classifyBlocks config pool rows node rest with
          | error e =>
              rw [hblock, hrest] at h
              cases h
          | ok others =>
              obtain rfl | hrow := List.mem_cons.mp hrow
              · exact ⟨verdict?, hblock⟩
              · exact ih hrest hrow

theorem isDuplicate_of_due {row : Block} {hash : String} (h : Due config pool rows dag row hash) :
    IsDuplicate pool row.blockHeight hash row :=
  ⟨(mem_pending_iff.mp h.pending).2.1, rfl, h.recorded⟩

theorem amount_pos_iff (hash : String) :
    0 < ((dag.creditedOutputs config hash).map (dag.amount config)).sum ↔
      PaysPool config dag hash := by
  have hnonneg : ∀ value ∈ (dag.creditedOutputs config hash).map (dag.amount config),
      0 ≤ value := by
    intro value hvalue
    obtain ⟨output, _, rfl⟩ := List.mem_map.mp hvalue
    exact Dag.amount_nonneg output
  constructor
  · intro hpos
    by_contra hnone
    apply hpos.ne'
    apply List.sum_eq_zero
    intro value hvalue
    obtain ⟨output, houtput, rfl⟩ := List.mem_map.mp hvalue
    by_contra hne
    exact hnone ⟨output, houtput, lt_of_le_of_ne (Dag.amount_nonneg output) (Ne.symm hne)⟩
  · rintro ⟨output, houtput, hpos⟩
    exact lt_of_lt_of_le hpos (List.single_le_sum hnonneg _ (List.mem_map_of_mem houtput))

/-- What the node finds out about a due row. -/
theorem reward_of_due {row : Block} {hash : String} {reward : ℚ}
    (hreward : FindsReward config hash dag.node row reward) :
    reward = ((dag.creditedOutputs config hash).map (dag.amount config)).sum := by
  obtain ⟨response, hresponse, _, _, info, hinfo, hreward⟩ := hreward
  obtain rfl := Option.some.inj hresponse
  cases hfind : dag.find hash with
  | none =>
      rw [hfind] at hinfo
      cases hinfo
  | some block =>
      rw [hfind] at hinfo
      obtain rfl := Option.some.inj hinfo
      exact Dag.blockReward_eq hfind hreward

/-- A confirmed block comes from a due row, and its reward from its outputs. -/
theorem due_of_confirmed
    (h : classifyBlocks config pool rows (fun _ => dag.node)
      (getPendingBlocksForPool rows pool.id) = .ok results)
    {block : Block} (hblock : block ∈ results)
    (hconfirmed : block.status = .confirmed) :
    ∃ row hash, Due config pool rows dag row hash ∧ row.id = block.id ∧ block.hash = some hash ∧
      block.reward = ((outputsOf config dag block).map (dag.amount config)).sum ∧
        PaysPool config dag hash := by
  obtain ⟨row, hrow, verdict, hverdict, rfl⟩ := (mem_results_iff h).mp hblock
  obtain ⟨_, hpool, hpending⟩ := mem_pending_iff.mp hrow
  cases hhash : row.hash with
  | none =>
      rw [classifyBlock, hhash] at hverdict
      cases hverdict
  | some hash =>
      have hduplicate : IsDuplicate pool row.blockHeight hash row := ⟨hpool, rfl, hhash⟩
      obtain ⟨hearliest, hreward, hpos⟩ :=
        paid_of_confirmed hduplicate hpending hverdict hconfirmed
      have hsum := reward_of_due hreward
      obtain ⟨response, hresponse, _, hmatured, info, hinfo, _⟩ := hreward
      have hknown : (dag.find hash).isSome := by
        obtain rfl := Option.some.inj hresponse
        cases hfind : dag.find hash with
        | none =>
            rw [hfind] at hinfo
            cases hinfo
        | some block => rfl
      refine ⟨row, hash, ⟨hrow, hhash, hearliest, hknown, hmatured⟩, rfl, hhash, ?_, ?_⟩
      · have houtputs : outputsOf config dag (verdict.apply row) =
            dag.creditedOutputs config hash := by
          rw [outputsOf, show (verdict.apply row).hash = some hash from hhash]
        rw [houtputs]
        exact hsum
      · rw [← amount_pos_iff, ← hsum]
        exact hpos

/-- A due row whose block pays the pool is confirmed. -/
theorem confirmed_of_due
    (h : classifyBlocks config pool rows (fun _ => dag.node)
      (getPendingBlocksForPool rows pool.id) = .ok results) {row : Block} {hash : String}
    (hdue : Due config pool rows dag row hash) (hpays : PaysPool config dag hash) :
    ∃ block ∈ results, block.id = row.id ∧ block.status = .confirmed ∧
      outputsOf config dag block = dag.creditedOutputs config hash := by
  obtain ⟨info, hinfo⟩ := Option.isSome_iff_exists.mp hdue.known
  have hresponse : dag.node.getBlock hash = some { block := some info } := by
    simp only [Dag.node, hinfo]
  obtain ⟨verdict?, hverdict?⟩ := classifyBlock_of_classifyBlocks h hdue.pending
  have hcount := (totalDuplicateBlockBefore_eq_zero_iff (isDuplicate_of_due hdue)).mpr hdue.earliest
  -- The reward can be found, since the classification of the row does not throw.
  have hreward : ∃ reward, blockReward config dag.node hash info = .ok reward := by
    cases hreward : blockReward config dag.node hash info with
    | ok reward => exact ⟨reward, rfl⟩
    | error e =>
        rw [classifyBlock_eq (isDuplicate_of_due hdue), hresponse] at hverdict?
        dsimp only at hverdict?
        rw [if_neg (not_not.mpr rfl), hcount, if_neg (Nat.lt_irrefl 0), classifyKnown] at hverdict?
        dsimp only at hverdict?
        rw [if_neg (not_lt.mpr hdue.matured), hreward] at hverdict?
        cases hverdict?
  obtain ⟨reward, hreward⟩ := hreward
  have hfound : FindsReward config hash dag.node row reward :=
    ⟨_, hresponse, rfl, hdue.matured, info, rfl, hreward⟩
  have hpos : 0 < reward := by
    rw [reward_of_due hfound]
    exact (amount_pos_iff hash).mpr hpays
  obtain ⟨verdict, hverdict, hconfirmed⟩ :=
    confirmed_of_paid (isDuplicate_of_due hdue) hdue.earliest ⟨reward, hfound, hpos⟩
  refine ⟨verdict.apply row, (mem_results_iff h).mpr ⟨row, hdue.pending, verdict, hverdict, rfl⟩,
    rfl, hconfirmed, ?_⟩
  rw [outputsOf, show (verdict.apply row).hash = some hash from hdue.recorded]

/-- The blocks of the results have distinct ids. -/
theorem pairwise_id_results (hids : (rows.map Block.id).Nodup)
    (h : classifyBlocks config pool rows (fun _ => dag.node)
      (getPendingBlocksForPool rows pool.id) = .ok results) :
    results.Pairwise fun block block' => block.id ≠ block'.id := by
  have hpending : ((getPendingBlocksForPool rows pool.id).map Block.id).Nodup :=
    hids.sublist (List.filter_sublist.map Block.id)
  rw [classifyBlocks_eq_ok config h]
  exact List.pairwise_map.mp (hpending.sublist (map_id_classifyBlocks _ _))

/-- Outputs in two rewards are ruled out when rows are paid apart. -/
theorem disjoint_of_paidApart (hdag : dag.WellFormed) (hapart : PaidApart config pool rows dag)
    {row row' : Block} {hash hash' : String} (hdue : Due config pool rows dag row hash)
    (hdue' : Due config pool rows dag row' hash') (hpays : PaysPool config dag hash)
    (hpays' : PaysPool config dag hash') (hne : row.id ≠ row'.id) :
    List.Disjoint (dag.creditedOutputs config hash) (dag.creditedOutputs config hash') := by
  -- The child of a block that is paid for by itself would be the parent that pays for the other.
  have hparent : ∀ {row row' : Block} {hash hash' : String} {output : OutputId},
      Due config pool rows dag row hash → Due config pool rows dag row' hash' →
      PaysPool config dag hash → ¬ dag.PaidByItself config hash → dag.PaidByItself config hash' →
      output ∈ dag.childOutputs config hash → output ∈ dag.ownOutputs config hash' → False := by
    intro row row' hash hash' output hdue hdue' hpays hchild hself houtput houtput'
    obtain ⟨other, hother, hpos⟩ := hpays
    rw [Dag.creditedOutputs, if_neg hchild] at hother
    obtain rfl := Dag.childOutputs_subsingleton hdag hother houtput
    obtain rfl := Dag.fst_of_mem_ownOutputs houtput'
    exact hapart.parents row row' hash other.1 other.2 hdue hdue' hself hother hpos
  have hhash : hash ≠ hash' := by
    rintro rfl
    exact hne (hapart.blocks row row' hash hdue hdue' hpays)
  intro output houtput houtput'
  rw [Dag.creditedOutputs] at houtput houtput'
  by_cases hself : dag.PaidByItself config hash <;> by_cases hself' : dag.PaidByItself config hash'
  · rw [if_pos hself] at houtput
    rw [if_pos hself'] at houtput'
    exact hhash ((Dag.fst_of_mem_ownOutputs houtput).symm.trans
      (Dag.fst_of_mem_ownOutputs houtput'))
  · rw [if_pos hself] at houtput
    rw [if_neg hself'] at houtput'
    exact hparent hdue' hdue hpays' hself' hself houtput' houtput
  · rw [if_neg hself] at houtput
    rw [if_pos hself'] at houtput'
    exact hparent hdue hdue' hpays hself hself' houtput houtput'
  · rw [if_neg hself] at houtput
    rw [if_neg hself'] at houtput'
    exact hhash (Dag.eq_of_childOutput_eq (Dag.mem_childOutputs houtput)
      (Dag.mem_childOutputs houtput'))

/-- Rows that are paid apart are credited once. -/
theorem creditsOnce_of_paidApart (hdag : dag.WellFormed) (hids : (rows.map Block.id).Nodup)
    (h : classifyBlocks config pool rows (fun _ => dag.node)
      (getPendingBlocksForPool rows pool.id) = .ok results)
    (hapart : PaidApart config pool rows dag) : CreditsOnce config dag results := by
  have hdisjoint : ∀ block ∈ results, ∀ block' ∈ results, block.status = .confirmed →
      block'.status = .confirmed → block.id ≠ block'.id →
        List.Disjoint (outputsOf config dag block) (outputsOf config dag block') := by
    intro block hblock block' hblock' hconfirmed hconfirmed' hne
    obtain ⟨row, hash, hdue, hid, hhash, _, hpays⟩ := due_of_confirmed h hblock hconfirmed
    obtain ⟨row', hash', hdue', hid', hhash', _, hpays'⟩ :=
      due_of_confirmed h hblock' hconfirmed'
    rw [outputsOf, outputsOf, hhash, hhash']
    exact disjoint_of_paidApart hdag hapart hdue hdue' hpays hpays' (by rwa [hid, hid'])
  refine ⟨hdisjoint, ?_⟩
  have hmem : ∀ block ∈ results.filter fun block => block.status = .confirmed,
      block ∈ results ∧ block.status = .confirmed := fun block hblock =>
    ⟨List.mem_of_mem_filter hblock, of_decide_eq_true (List.mem_filter.mp hblock).2⟩
  have hrewards : (results.filter fun block => block.status = .confirmed).map Block.reward =
      (results.filter fun block => block.status = .confirmed).map fun block =>
        ((outputsOf config dag block).map (dag.amount config)).sum := by
    apply List.map_congr_left
    intro block hblock
    obtain ⟨_, _, _, _, _, hreward, _⟩ :=
      due_of_confirmed h (hmem block hblock).1 (hmem block hblock).2
    exact hreward
  rw [hrewards]
  apply sum_credits_le
  · intro block _
    rw [outputsOf]
    split
    · exact List.nodup_nil
    · exact Dag.nodup_creditedOutputs hdag _
  · apply List.Pairwise.imp_of_mem _ ((pairwise_id_results hids h).filter _)
    intro block block' hblock hblock' hne
    exact hdisjoint block (hmem block hblock).1 block' (hmem block' hblock').1
      (hmem block hblock).2 (hmem block' hblock').2 hne
  · intro block _
    rw [outputsOf]
    split
    · exact List.nil_subset _
    · exact Dag.creditedOutputs_subset _
  · exact Dag.amount_nonneg

/-- The chain block `merger` pays the pool for `merged`; its own child pays somebody else. -/
def mergingDag : Dag where
  blocks :=
    [("merged", { childrenHashes := ["merger"] }),
      ("merger",
        { transactions := [⟨0, [⟨1000000000, "pool"⟩]⟩], childrenHashes := ["child"]
          mergeSetBluesHashes := ["merged"], isChainBlock := true }),
      ("child",
        { transactions := [⟨0, [⟨1000000000, "other"⟩]⟩], mergeSetBluesHashes := ["merger"]
          isChainBlock := true })]
  counts _ := some 200

theorem wellFormed_mergingDag : mergingDag.WellFormed where
  nodup := by decide
  nodup_children := by decide
  one_merger := by
    intro hash block hblock block' hblock' hchain hchain' hmem hmem'
    simp only [mergingDag, List.mem_cons, List.not_mem_nil, or_false] at hblock hblock'
    obtain rfl | rfl | rfl := hblock <;> obtain rfl | rfl | rfl := hblock' <;> simp_all

def minedRow (id blockHeight : Nat) (hash : String) : Block where
  id
  poolId := "kas"
  blockHeight
  miner := "miner"
  reward := 0
  hash := some hash
  created := id

def mergingRows : List Block := [minedRow 1 5 "merged", minedRow 2 6 "merger"]

/-- A row that was confirmed with ten coins. -/
def confirmedRow (row : Block) : Block :=
  { row with status := .confirmed, confirmationProgress := 1, reward := 10 }

/-- Each of two blocks of the pool is paid for by the next one of the chain. -/
def chainDag : Dag where
  blocks :=
    [("merged", { childrenHashes := ["merger"] }),
      ("merger",
        { transactions := [⟨0, [⟨1000000000, "pool"⟩]⟩], childrenHashes := ["child"]
          mergeSetBluesHashes := ["merged"], isChainBlock := true }),
      ("child",
        { transactions := [⟨0, [⟨1000000000, "pool"⟩]⟩], mergeSetBluesHashes := ["merger"]
          isChainBlock := true })]
  counts _ := some 200

theorem wellFormed_chainDag : chainDag.WellFormed where
  nodup := by decide
  nodup_children := by decide
  one_merger := by
    intro hash block hblock block' hblock' hchain hchain' hmem hmem'
    simp only [chainDag, List.mem_cons, List.not_mem_nil, or_false] at hblock hblock'
    obtain rfl | rfl | rfl := hblock <;> obtain rfl | rfl | rfl := hblock' <;> simp_all

theorem mem_mergingRows_of_due {row : Block} {hash : String}
    (hdue : Due twoRowsConfig twoRowsPool mergingRows chainDag row hash) :
    (row = minedRow 1 5 "merged" ∧ hash = "merged") ∨
      (row = minedRow 2 6 "merger" ∧ hash = "merger") := by
  obtain hrow | hrow := List.mem_pair.mp (mem_pending_iff.mp hdue.pending).1
  · subst hrow
    exact .inl ⟨rfl, (Option.some.inj hdue.recorded).symm⟩
  · subst hrow
    exact .inr ⟨rfl, (Option.some.inj hdue.recorded).symm⟩

end KaspaPayoutHandler

end Miningcore
