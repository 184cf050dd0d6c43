import Mathlib.Algebra.BigOperators.Group.List.Basic
import Miningcore.Blockchain.Ergo.ErgoPayoutHandler

/-!
# Ergo rows and the blocks at their height

A row should be settled by the block that the pool has mined for it, and orphaned when there is
none in the wallet. The classification counts why blocks are passed over and orphans a
row only if all of them are for the same reason. What it pays is taken from the first block
that is found and the first output of each transaction.

## Implementation notes

All calls for headers and blocks are answered. A transaction without an answer is none of
the wallet.
-/

namespace Miningcore.ErgoPayoutHandler

open Foundation Ergo

/-! ## What the chain says of a row -/

section chain

variable (minConfirmations : ℤ) (pubkey address data : String)

/-- The outputs of a transaction of the wallet that go to the pool. -/
def ownOutputs (answer : Option WalletTransaction) : List TransactionOutput :=
  answer.elim [] fun walletTx => walletTx.outputs.filter fun output => output.address = address

/-- What all outputs of a block to the pool are worth. -/
def poolOutputs (fullBlock : FullBlock) : ℤ :=
  (fullBlock.transactions.map fun answer => ((ownOutputs address answer).map (·.value)).sum).sum

/-- The transaction pays the reward and has enough confirmations. -/
def matured (answer : Option WalletTransaction) : Bool :=
  answer.any fun walletTx =>
    (coinbaseOutput address walletTx).isSome && minConfirmations ≤ walletTx.numConfirmations

/-- The pool has mined the block for the row, and the wallet is paid by it. -/
def matchingBlock (fullBlock : FullBlock) : Bool :=
  minedBlock pubkey data fullBlock && fullBlock.transactions.any (paysReward address)

/-- The pool has mined the block for the row, and what it pays has matured. -/
def maturedBlock (fullBlock : FullBlock) : Bool :=
  minedBlock pubkey data fullBlock && fullBlock.transactions.any (matured minConfirmations address)

def chainStatus (fullBlocks : List FullBlock) : BlockStatus :=
  if fullBlocks.any (maturedBlock minConfirmations pubkey address data) then .confirmed
  else if fullBlocks.any (matchingBlock pubkey address data) then .pending
  else .orphaned

/-- The row becomes what the chain says, for the reward of the block that is found. -/
structure FollowsChain (fullBlocks : List FullBlock) (block : Block) (result : Option Block) :
    Prop where
  status : (result.getD block).status =
    chainStatus minConfirmations pubkey address block.transactionConfirmationData fullBlocks
  reward : ∀ row, result = some row → row.status ≠ .orphaned → ∃ fullBlock,
    fullBlocks.find? (matchingBlock pubkey address block.transactionConfirmationData) =
        some fullBlock ∧
      row.reward = poolOutputs address fullBlock / smallestUnit

/-- What a transaction pays the pool beside its first output, and the assets of this one. -/
def leftOut (answer : Option WalletTransaction) : ℤ :=
  match ownOutputs address answer with
  | [] => 0
  | output :: rest => output.assets.headD 0 + (rest.map (·.value)).sum

def blockLeftOut (fullBlock : FullBlock) : ℤ :=
  (fullBlock.transactions.map (leftOut address)).sum

/-- All blocks are passed over for the same reason. -/
def SameReason (fullBlocks : List FullBlock) : Prop :=
  (∀ fullBlock ∈ fullBlocks, fullBlock.pk ≠ pubkey) ∨
    (∀ fullBlock ∈ fullBlocks, fullBlock.pk = pubkey ∧ fullBlock.n ≠ data) ∨
    ∀ fullBlock ∈ fullBlocks, minedBlock pubkey data fullBlock = true

/-- When the blocks at the height of a row settle it: without one that is found they are
passed over for the same reason, and the first that is found has matured if any has and pays
nothing but first outputs without assets. -/
def SettlesRow (fullBlocks : List FullBlock) : Prop :=
  match fullBlocks.find? (matchingBlock pubkey address data) with
  | none => SameReason pubkey data fullBlocks
  | some fullBlock =>
      (fullBlocks.any (maturedBlock minConfirmations pubkey address data) →
        maturedBlock minConfirmations pubkey address data fullBlock) ∧
      blockLeftOut address fullBlock = 0

end chain

/-! ## The transactions of a block -/

section transactions

variable {minConfirmations : ℤ} {pubkey address data : String} {fullBlock : FullBlock}

theorem ownOutputs_eq_nil_or (answer : Option WalletTransaction) :
    (ownOutputs address answer = [] ∧ paysReward address answer = false) ∨
      ∃ walletTx output rest, answer = some walletTx ∧
        ownOutputs address answer = output :: rest ∧
        coinbaseOutput address walletTx = some output := by
  cases answer with
  | none => exact Or.inl ⟨rfl, rfl⟩
  | some walletTx =>
      have hhead : coinbaseOutput address walletTx =
          (ownOutputs address (some walletTx)).head? := List.head?_filter.symm
      cases houtputs : ownOutputs address (some walletTx) with
      | nil =>
          rw [houtputs] at hhead
          refine Or.inl ⟨rfl, ?_⟩
          rw [paysReward, Option.any_some, hhead]
          rfl
      | cons output rest =>
          rw [houtputs] at hhead
          exact Or.inr ⟨walletTx, output, rest, rfl, rfl, hhead⟩

/-- A transaction of a block that the pool has mined, field by field. -/
theorem searchTransaction_fields (answer : Option WalletTransaction) (found : Block × Bool) :
    (searchTransaction minConfirmations address fullBlock answer found).2 =
        (found.2 || paysReward address answer) ∧
      (searchTransaction minConfirmations address fullBlock answer found).1.status =
        (if matured minConfirmations address answer then .confirmed else found.1.status) ∧
      (searchTransaction minConfirmations address fullBlock answer found).1.reward =
        found.1.reward + (((ownOutputs address answer).map (·.value)).sum - leftOut address answer :
          ℤ) / smallestUnit := by
  obtain ⟨houtputs, hpays⟩ | ⟨walletTx, output, rest, rfl, houtputs, hcoinbase⟩ :=
    @ownOutputs_eq_nil_or address answer
  · have hmatured : matured minConfirmations address answer = false := by
      cases answer with
      | none => rfl
      | some walletTx =>
          have hnone : (coinbaseOutput address walletTx).isSome = false := hpays
          rw [matured, Option.any_some, hnone, Bool.false_and]
    rw [searchTransaction_of_not_pays hpays, hpays, hmatured, leftOut, houtputs]
    refine ⟨(Bool.or_false _).symm, rfl, ?_⟩
    simp
  · have hvalue : ((ownOutputs address (some walletTx)).map (·.value)).sum -
        leftOut address (some walletTx) = output.value - output.assets.headD 0 := by
      rw [leftOut, houtputs, List.map_cons, List.sum_cons]
      ring
    rw [hvalue]
    simp only [searchTransaction, hcoinbase, paysReward, matured, Option.any_some,
      Option.isSome_some, Bool.true_and, decide_eq_true_iff]
    split
    · refine ⟨(Bool.or_true _).symm, rfl, ?_⟩
      push_cast
      rfl
    · refine ⟨(Bool.or_true _).symm, rfl, ?_⟩
      push_cast
      rfl

/-- What becomes of a row by the transactions of its block. -/
def settle (minConfirmations : ℤ) (address : String) (fullBlock : FullBlock)
    (found : Block × Bool) (answers : List (Option WalletTransaction)) : Block × Bool :=
  answers.foldl
    (fun found answer => searchTransaction minConfirmations address fullBlock answer found) found

theorem outcome_searchTransactions (answers : List (Option WalletTransaction))
    (found : Block × Bool) :
    (searchTransactions minConfirmations address fullBlock answers found).outcome =
      .ok (settle minConfirmations address fullBlock found answers) := by
  induction answers generalizing found with
  | nil => rfl
  | cons answer answers ih =>
      rw [searchTransactions, Guarded.bind_of_outcome_ok rfl]
      exact ih _

/-- All transactions of a block, with the rewards of those that pay. -/
theorem settle_fields (answers : List (Option WalletTransaction)) (found : Block × Bool) :
    (settle minConfirmations address fullBlock found answers).2 =
        (found.2 || answers.any (paysReward address)) ∧
      (settle minConfirmations address fullBlock found answers).1.status =
        (if answers.any (matured minConfirmations address) then .confirmed
          else found.1.status) ∧
      (settle minConfirmations address fullBlock found answers).1.reward =
        found.1.reward +
          ((answers.map fun answer => ((ownOutputs address answer).map (·.value)).sum).sum -
            (answers.map (leftOut address)).sum : ℤ) / smallestUnit := by
  induction answers generalizing found with
  | nil => simp [settle]
  | cons answer answers ih =>
      obtain ⟨hfound, hstatus, hreward⟩ :=
        @searchTransaction_fields minConfirmations address fullBlock answer found
      obtain ⟨hfound', hstatus', hreward'⟩ :=
        ih (searchTransaction minConfirmations address fullBlock answer found)
      refine ⟨?_, ?_, ?_⟩
      · calc _ = _ := hfound'
          _ = _ := by rw [hfound, Bool.or_assoc, List.any_cons]
      · calc _ = _ := hstatus'
          _ = _ := by
            rw [hstatus, List.any_cons]
            cases matured minConfirmations address answer <;> simp
      · calc _ = _ := hreward'
          _ = _ := by
            rw [hreward, List.map_cons, List.map_cons, List.sum_cons, List.sum_cons]
            push_cast
            ring

end transactions

/-! ## The blocks at a height -/

section blocks

variable {minConfirmations : ℤ} {pubkey address : String}

/-- The row that a block leaves behind that is found. -/
def settledRow (minConfirmations : ℤ) (address : String) (fullBlock : FullBlock) (block : Block) :
    Block :=
  (settle minConfirmations address fullBlock ({ block with reward := 0 }, false)
    fullBlock.transactions).1

theorem searchBlock_of_matching {fullBlock : FullBlock} {search : Search}
    (h : matchingBlock pubkey address search.block.transactionConfirmationData fullBlock = true) :
    (searchBlock minConfirmations pubkey address fullBlock search).outcome = .ok
      { search with
        block := settledRow minConfirmations address fullBlock search.block, handled := true } := by
  obtain ⟨hmined, hpays⟩ := Bool.and_eq_true_iff.mp h
  obtain ⟨hpk, hn⟩ := Bool.and_eq_true_iff.mp hmined
  have houtcome := @outcome_searchTransactions minConfirmations address fullBlock
    fullBlock.transactions ({ search.block with reward := 0 }, false)
  have hfound := (@settle_fields minConfirmations address fullBlock fullBlock.transactions
    ({ search.block with reward := 0 }, false)).1
  rw [Bool.false_or, hpays] at hfound
  rw [searchBlock, if_neg (not_not_intro (of_decide_eq_true hpk)),
    if_neg (not_not_intro (of_decide_eq_true hn)), Guarded.bind_of_outcome_ok houtcome]
  dsimp only
  rw [if_pos hfound]
  rfl

/-- A block that is passed over changes no more of the row than its reward. -/
theorem searchBlock_of_not_matching {fullBlock : FullBlock} {search : Search}
    (hsearch : search.handled = false)
    (h : matchingBlock pubkey address search.block.transactionConfirmationData fullBlock = false) :
    ∃ search', (searchBlock minConfirmations pubkey address fullBlock search).outcome =
        .ok search' ∧ Unhandled pubkey address [some fullBlock] search search' ∧
      ∃ reward, search'.block = { search.block with reward := reward } := by
  rw [searchBlock]
  by_cases hpk : fullBlock.pk = pubkey
  · rw [if_neg (not_not_intro hpk)]
    by_cases hn : fullBlock.n = search.block.transactionConfirmationData
    · have hnone : fullBlock.transactions.any (paysReward address) = false := by
        rw [matchingBlock, minedBlock, decide_eq_true hpk, decide_eq_true hn] at h
        exact h
      obtain ⟨-, hresult⟩ | ⟨hpays, -⟩ :=
        @searchTransactions_cases minConfirmations address fullBlock fullBlock.transactions
          ({ search.block with reward := 0 }, false)
      · rw [if_neg (not_not_intro hn), hresult, Guarded.bind_of_outcome_ok rfl]
        refine ⟨_, rfl, ?_, 0, rfl⟩
        constructor <;>
          simp [hsearch, pkMismatch, nonceMismatch, coinbaseNonWallet, minedBlock, hpk, hn, hnone,
            Kept]
      · rw [hnone] at hpays
        contradiction
    · rw [if_pos hn]
      refine ⟨_, rfl, ?_, search.block.reward, rfl⟩
      constructor <;>
        simp [hsearch, pkMismatch, nonceMismatch, coinbaseNonWallet, minedBlock, hpk, hn, Kept]
  · rw [if_pos hpk]
    refine ⟨_, rfl, ?_, search.block.reward, rfl⟩
    constructor <;>
      simp [hsearch, pkMismatch, nonceMismatch, coinbaseNonWallet, minedBlock, hpk, Kept]

/-- The search ends at the first block that is found. -/
theorem searchBlocks_some (fullBlocks : List FullBlock) {search : Search}
    (hsearch : search.handled = false) :
    (fullBlocks.find? (matchingBlock pubkey address search.block.transactionConfirmationData) =
        none ∧ ∃ search',
      (searchBlocks minConfirmations pubkey address (fullBlocks.map some) search).outcome =
        .ok search' ∧ Unhandled pubkey address (fullBlocks.map some) search search') ∨
    ∃ fullBlock search',
      fullBlocks.find? (matchingBlock pubkey address search.block.transactionConfirmationData) =
        some fullBlock ∧
      (searchBlocks minConfirmations pubkey address (fullBlocks.map some) search).outcome =
        .ok search' ∧ search'.handled = true ∧
      search'.block = settledRow minConfirmations address fullBlock search.block := by
  induction fullBlocks generalizing search with
  | nil => exact Or.inl ⟨rfl, search, rfl, hsearch, rfl, rfl, rfl, rfl, Kept.refl _⟩
  | cons fullBlock fullBlocks ih =>
      have hopen : ¬ search.handled = true := by
        rw [hsearch]
        decide
      rw [List.map_cons, searchBlocks, if_neg hopen]
      cases hmatching : matchingBlock pubkey address search.block.transactionConfirmationData
          fullBlock with
      | true =>
          right
          rw [Guarded.bind_of_outcome_ok (searchBlock_of_matching hmatching),
            searchBlocks_of_handled rfl]
          exact ⟨fullBlock, _, List.find?_cons_of_pos hmatching, rfl, rfl, rfl⟩
      | false =>
          obtain ⟨next, hnext, hunhandled, reward, hreward⟩ :=
            @searchBlock_of_not_matching minConfirmations pubkey address fullBlock search hsearch
              hmatching
          rw [Guarded.bind_of_outcome_ok hnext,
            List.find?_cons_of_neg (Bool.not_eq_true _ ▸ hmatching), ← hunhandled.data]
          obtain ⟨hnone, search', hresult, hrest⟩ |
            ⟨found, search', hfound, hresult, hhandled, hblock⟩ := ih hunhandled.handled
          · exact Or.inl ⟨hnone, search', hresult, hunhandled.append hrest⟩
          · refine Or.inr ⟨found, search', hfound, hresult, hhandled, ?_⟩
            rw [hblock, hreward]
            rfl

/-- Without a block that is found the counters decide. -/
theorem orphanReason_iff_sameReason {fullBlocks : List FullBlock} {block : Block} {search : Search}
    (hnone : fullBlocks.find? (matchingBlock pubkey address block.transactionConfirmationData) =
      none)
    (h : Unhandled pubkey address (fullBlocks.map some) { block := block } search) :
    (orphanReason search (fullBlocks.map some).length).isSome = true ↔
      SameReason pubkey block.transactionConfirmationData fullBlocks := by
  rw [h.orphanReason_iff, SameReason]
  simp only [List.forall_mem_map]
  refine or_congr ?_ (or_congr ?_ ?_)
  · refine forall₂_congr fun fullBlock _ => ?_
    rw [pkMismatch, Option.any_some, decide_eq_true_iff]
  · refine forall₂_congr fun fullBlock _ => ?_
    rw [nonceMismatch, Option.any_some, Bool.and_eq_true_iff, decide_eq_true_iff,
      decide_eq_true_iff]
  · refine forall₂_congr fun fullBlock hmem => ?_
    have hnot := List.find?_eq_none.mp hnone fullBlock hmem
    rw [matchingBlock, Bool.and_eq_true_iff, not_and, Bool.not_eq_true] at hnot
    rw [coinbaseNonWallet, Option.any_some, Bool.and_eq_true_iff, Bool.not_eq_true']
    exact and_iff_left_of_imp hnot

/-- What becomes of a row, by the first block that is found. -/
theorem classifyBlock_some (fullBlocks : List FullBlock) (block : Block) :
    (fullBlocks.find? (matchingBlock pubkey address block.transactionConfirmationData) = none ∧
      ∃ row, (classifyBlock minConfirmations pubkey address (some (fullBlocks.map some))
          block).outcome = .ok row ∧
        (SameReason pubkey block.transactionConfirmationData fullBlocks ∧
            (∃ found, row = some found ∧ found.status = .orphaned) ∨
          ¬ SameReason pubkey block.transactionConfirmationData fullBlocks ∧ row = none)) ∨
    ∃ fullBlock,
      fullBlocks.find? (matchingBlock pubkey address block.transactionConfirmationData) =
        some fullBlock ∧
      (classifyBlock minConfirmations pubkey address (some (fullBlocks.map some)) block).outcome =
        .ok (some (settledRow minConfirmations address fullBlock block)) := by
  rw [classifyBlock, Guarded.bind_of_outcome_ok rfl]
  dsimp only
  rw [Guarded.bind_of_outcome_ok rfl]
  dsimp only
  obtain ⟨hnone, search, hresult, hunhandled⟩ | ⟨fullBlock, search, hfound, hresult, hhandled,
      hblock⟩ := @searchBlocks_some minConfirmations pubkey address fullBlocks
        { block := block } rfl
  · refine Or.inl ⟨hnone, ?_⟩
    have hopen : ¬ search.handled = true := by
      rw [hunhandled.handled]
      decide
    rw [Guarded.bind_of_outcome_ok hresult]
    dsimp only
    rw [if_neg hopen]
    split
    · rename_i hreason
      have hsame := (orphanReason_iff_sameReason hnone hunhandled).mp hreason
      exact ⟨_, rfl, Or.inl ⟨hsame, _, rfl, rfl⟩⟩
    · rename_i hreason
      have hmixed := mt (orphanReason_iff_sameReason hnone hunhandled).mpr hreason
      exact ⟨_, rfl, Or.inr ⟨hmixed, rfl⟩⟩
  · refine Or.inr ⟨fullBlock, hfound, ?_⟩
    rw [Guarded.bind_of_outcome_ok hresult]
    dsimp only
    rw [if_pos hhandled, hblock]
    rfl

theorem paysReward_of_matured {answer : Option WalletTransaction}
    (h : matured minConfirmations address answer = true) : paysReward address answer = true := by
  cases answer with
  | none => contradiction
  | some walletTx => exact (Bool.and_eq_true_iff.mp h).1

theorem matchingBlock_of_maturedBlock {data : String} {fullBlock : FullBlock}
    (h : maturedBlock minConfirmations pubkey address data fullBlock = true) :
    matchingBlock pubkey address data fullBlock = true := by
  obtain ⟨hmined, hmatured⟩ := Bool.and_eq_true_iff.mp h
  obtain ⟨answer, hanswer, hpays⟩ := List.any_eq_true.mp hmatured
  refine Bool.and_eq_true_iff.mpr ⟨hmined, ?_⟩
  exact List.any_eq_true.mpr ⟨answer, hanswer, paysReward_of_matured hpays⟩

/-- The chain's verdict on blocks none of which is found. -/
theorem chainStatus_of_none {data : String} {fullBlocks : List FullBlock}
    (h : fullBlocks.find? (matchingBlock pubkey address data) = none) :
    chainStatus minConfirmations pubkey address data fullBlocks = .orphaned := by
  have hnot := List.find?_eq_none.mp h
  have hmatching : fullBlocks.any (matchingBlock pubkey address data) = false :=
    List.any_eq_false.mpr hnot
  have hmatured :
      fullBlocks.any (maturedBlock minConfirmations pubkey address data) = false :=
    List.any_eq_false.mpr fun fullBlock hmem h =>
      hnot fullBlock hmem (matchingBlock_of_maturedBlock h)
  rw [chainStatus, hmatured, hmatching]
  rfl

theorem chainStatus_of_some {data : String} {fullBlocks : List FullBlock} {fullBlock : FullBlock}
    (h : fullBlocks.find? (matchingBlock pubkey address data) = some fullBlock) :
    chainStatus minConfirmations pubkey address data fullBlocks =
      if fullBlocks.any (maturedBlock minConfirmations pubkey address data) then .confirmed
      else .pending := by
  have hmatching : fullBlocks.any (matchingBlock pubkey address data) = true :=
    List.any_eq_true.mpr ⟨fullBlock, List.mem_of_find?_eq_some h, List.find?_some h⟩
  rw [chainStatus, hmatching]
  rfl

theorem settledRow_fields (fullBlock : FullBlock) {block : Block}
    (hpending : block.status = .pending) :
    (settledRow minConfirmations address fullBlock block).status =
        (if fullBlock.transactions.any (matured minConfirmations address) then .confirmed
          else .pending) ∧
      (settledRow minConfirmations address fullBlock block).reward =
        (poolOutputs address fullBlock - blockLeftOut address fullBlock : ℤ) / smallestUnit := by
  obtain ⟨-, hstatus, hreward⟩ := @settle_fields minConfirmations address fullBlock
    fullBlock.transactions ({ block with reward := 0 }, false)
  constructor
  · rw [← hpending]
    exact hstatus
  · rw [zero_add] at hreward
    exact hreward

/-- A row that is settled by the first matching block follows the chain when this block speaks for
all of them and no output is left out. -/
theorem followsChain_settledRow_iff {fullBlocks : List FullBlock} {fullBlock : FullBlock}
    {block : Block} (hpending : block.status = .pending)
    (hfound : fullBlocks.find? (matchingBlock pubkey address block.transactionConfirmationData) =
      some fullBlock) :
    FollowsChain minConfirmations pubkey address fullBlocks block
        (some (settledRow minConfirmations address fullBlock block)) ↔
      SettlesRow minConfirmations pubkey address block.transactionConfirmationData fullBlocks := by
  obtain ⟨hstatus, hreward⟩ :=
    @settledRow_fields minConfirmations address fullBlock block hpending
  have hmatching : matchingBlock pubkey address block.transactionConfirmationData fullBlock =
      true := List.find?_some hfound
  have hmined := (Bool.and_eq_true_iff.mp hmatching).1
  have hmatured : maturedBlock minConfirmations pubkey address
      block.transactionConfirmationData fullBlock =
        fullBlock.transactions.any (matured minConfirmations address) := by
    rw [maturedBlock, hmined, Bool.true_and]
  have hany (h : maturedBlock minConfirmations pubkey address
      block.transactionConfirmationData fullBlock = true) :
      fullBlocks.any (maturedBlock minConfirmations pubkey address
        block.transactionConfirmationData) = true :=
    List.any_eq_true.mpr ⟨fullBlock, List.mem_of_find?_eq_some hfound, h⟩
  rw [← hmatured] at hstatus
  rw [SettlesRow, hfound]
  constructor
  · rintro ⟨hchain, hpaid⟩
    rw [Option.getD_some, chainStatus_of_some hfound, hstatus] at hchain
    constructor
    · intro hother
      by_contra hnot
      rw [if_neg hnot, if_pos hother] at hchain
      contradiction
    · have hnot : (settledRow minConfirmations address fullBlock block).status ≠ .orphaned := by
        rw [hstatus]
        split <;> decide
      obtain ⟨found, hsame, hsum⟩ := hpaid _ rfl hnot
      obtain rfl := Option.some.inj (hfound.symm.trans hsame)
      rw [hreward, div_left_inj' (by norm_num [smallestUnit]), Int.cast_inj] at hsum
      omega
  · rintro ⟨hother, hzero⟩
    constructor
    · rw [Option.getD_some, chainStatus_of_some hfound, hstatus]
      exact if_congr ⟨hany, hother⟩ rfl rfl
    · rintro row hrow -
      obtain rfl := Option.some.inj hrow
      refine ⟨fullBlock, hfound, ?_⟩
      rw [hreward, hzero, sub_zero]

/-- A row follows the chain when the blocks at its height settle it. -/
theorem followsChain_iff {fullBlocks : List FullBlock} {block : Block} {row : Option Block}
    (hpending : block.status = .pending)
    (hrow : (classifyBlock minConfirmations pubkey address (some (fullBlocks.map some))
      block).outcome = .ok row) :
    FollowsChain minConfirmations pubkey address fullBlocks block row ↔
      SettlesRow minConfirmations pubkey address block.transactionConfirmationData fullBlocks := by
  obtain ⟨hnone, row', hrow', hverdict⟩ | ⟨fullBlock, hfound, hrow'⟩ :=
    @classifyBlock_some minConfirmations pubkey address fullBlocks block
  · obtain rfl := Except.ok.inj (hrow.symm.trans hrow')
    have hstatus := @chainStatus_of_none minConfirmations pubkey address _ fullBlocks hnone
    rw [SettlesRow, hnone]
    obtain ⟨hsame, found, rfl, horphaned⟩ | ⟨hmixed, rfl⟩ := hverdict
    · refine iff_of_true ⟨?_, ?_⟩ hsame
      · rw [hstatus]
        exact horphaned
      · rintro found' hfound' hnot
        obtain rfl := Option.some.inj hfound'
        exact absurd horphaned hnot
    · refine iff_of_false ?_ hmixed
      intro hfollows
      have hstays := hfollows.status
      rw [hstatus, Option.getD_none, hpending] at hstays
      contradiction
  · obtain rfl := Except.ok.inj (hrow.symm.trans hrow')
    exact followsChain_settledRow_iff hpending hfound

/-- When a pending row becomes what the chain says, if all calls for its blocks succeed. -/
theorem followsChain_classifyRow_iff (config : ErgoClassifyConfig) {node : Node}
    {fullBlocks : List FullBlock} {block : Block} (hpending : block.status = .pending)
    (hpubkey : node.minerRewardPubkey = .ok pubkey)
    (haddress : node.minerRewardAddress = .ok address)
    (hblocks : node.fullBlocksAt block = some (fullBlocks.map some)) :
    ∃ row, (classifyRow config node block).outcome = .ok row ∧
      (FollowsChain config.minConfirmations pubkey address fullBlocks block row ↔
        SettlesRow config.minConfirmations pubkey address block.transactionConfirmationData
          fullBlocks) := by
  obtain ⟨row, hrow⟩ := @exists_classifyBlock config.minConfirmations pubkey address
    (some (fullBlocks.map some)) block
  refine ⟨row, ?_, followsChain_iff hpending hrow⟩
  rw [classifyRow_of_ok hpubkey haddress]
  dsimp only
  rw [hblocks]
  exact hrow

end blocks

/-! ## A fork at the height of a row -/

namespace Fork

def row : Block where
  id := 1
  poolId := "ergo"
  blockHeight := 1000
  transactionConfirmationData := "00a1"
  miner := "miner"
  reward := 0
  created := 0

/-- The block of the pool, whose transaction the wallet does not know. -/
def own : FullBlock where
  id := "own"
  pk := "03b7"
  n := "00a1"
  transactions := [none]

/-- The block that took its place. -/
def foreign : FullBlock where
  id := "foreign"
  pk := "02c4"
  n := "77e0"
  transactions := []

def paid : FullBlock := { own with
  transactions := [some ⟨[⟨"9fA", 67500000000, []⟩], 720⟩] }

def config : ErgoClassifyConfig where
  minimumConfirmations := none
  network := "mainnet"

def node (fullBlocks : List FullBlock) : Node where
  minerRewardPubkey := .ok "03b7"
  minerRewardAddress := .ok "9fA"
  fullBlocksAt _ := some (fullBlocks.map some)

/-- A paid block settles its row beside a foreign one. -/
theorem followsChain_paid : ∃ found,
    (classifyRow config (node [foreign, paid]) row).outcome = .ok found ∧
      FollowsChain 720 "03b7" "9fA" [foreign, paid] row found := by
  obtain ⟨found, hfound, hfollows⟩ := @followsChain_classifyRow_iff "03b7" "9fA" config
    (node [foreign, paid]) [foreign, paid] row rfl rfl rfl rfl
  refine ⟨found, hfound, hfollows.mpr ⟨fun _ => ?_, ?_⟩⟩
  · decide +kernel
  · decide +kernel

/-- A row whose block has been replaced stays pending, since the two blocks are passed over for
different reasons. -/
theorem not_followsChain : ∃ found,
    (classifyRow config (node [own, foreign]) row).outcome = .ok found ∧
      ¬ FollowsChain 720 "03b7" "9fA" [own, foreign] row found := by
  refine ⟨none, rfl, ?_⟩
  intro hfollows
  exact absurd hfollows.status (by decide +kernel)

end Fork

end Miningcore.ErgoPayoutHandler
