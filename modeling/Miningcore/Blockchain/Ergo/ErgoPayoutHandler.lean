import Miningcore.Payments.Transfers
import Miningcore.Payments.NodeOutages

/-!
# Ergo payouts

All balances are paid by one wallet transaction, in nanoergs. Whatever happens,
the wallet is locked at the end.
-/

namespace Miningcore

open Foundation PayoutHandlerBase

/-- What the node answers, or the exceptions its client throws. -/
structure ErgoWallet where
  isInitialized : Bool
  isUnlocked : Bool
  status : Option Exception := none
  unlock : Option Exception := none
  walletBalance : Except Exception ℤ
  generateAndSend : List (String × ℤ) → Except Exception (Option String)
  lock : Option Exception := none

namespace ErgoPayoutHandler

def smallestUnit : ℚ := 10 ^ 9

def payoutDecimalPlaces : ℤ := 4

/-- A cast of a decimal to a 64-bit integer truncates, and throws outside its range. -/
def toLong (x : ℚ) : Except Exception ℤ :=
  let value := if 0 ≤ x then ⌊x⌋ else ⌈x⌉
  if -2 ^ 63 ≤ value ∧ value < 2 ^ 63 then .ok value else .error (.overflow "Int64")

/-- The request batch. -/
def requests : List (String × ℚ) → Except Exception (List (String × ℤ))
  | [] => .ok []
  | amount :: rest =>
      match toLong (amount.2 * smallestUnit), requests rest with
      | .ok value, .ok values => .ok ((amount.1, value) :: values)
      | .error e, _ => .error e
      | _, .error e => .error e

attribute [local irreducible] toLong in
theorem requests_cons (amount : String × ℚ) (rest : List (String × ℚ)) :
    requests (amount :: rest) =
      match toLong (amount.2 * smallestUnit), requests rest with
      | .ok value, .ok values => .ok ((amount.1, value) :: values)
      | .error e, _ => .error e
      | _, .error e => .error e := rfl

variable (wallet : ErgoWallet) (pool : PoolConfig)

/-- The body of the `try` block. -/
def trySend (failure : Failures) (amounts : List (String × ℚ)) (balances : List Balance)
    (db : Database) : PayoutOutcome :=
  match wallet.status with
  | some e => .nothingSent db (some e)
  | none =>
      if wallet.isInitialized = false then
        .nothingSent db (some (.payment "Wallet is not initialized"))
      else match (if wallet.isUnlocked then none else wallet.unlock), wallet.walletBalance with
        | some e, _ => .nothingSent db (some e)
        | none, .error e => .nothingSent db (some e)
        | none, .ok walletBalance =>
            -- bail if the balance does not satisfy the payments
            if walletBalance / smallestUnit < (amounts.map Prod.snd).sum then .nothingSent db none
            else match requests amounts with
              | .error e => .nothingSent db (some e)
              | .ok values =>
                  match wallet.generateAndSend values with
                  | .error e => .nothingSent db (some e)
                  | .ok txId =>
                      let transfers := values.map fun value =>
                        (⟨value.1, value.2 / smallestUnit⟩ : Transfer)
                      if isNullOrEmpty txId then
                        ⟨transfers, [], db, some (.payment
                          "Payment transaction failed to return a transaction id")⟩
                      else .afterPersist transfers (balances.map (·, txId)) db
                        (persistPayments pool failure balances txId db)

/-- `PayoutAsync`: payment exceptions are reported, others go on once the wallet is locked. -/
def payout (failure : Failures) (balances : List Balance) (db : Database) : PayoutOutcome :=
  match payableAmounts (mathRound payoutDecimalPlaces) balances with
  | .error e => .nothingSent db (some e)
  | .ok amounts =>
      if amounts.length = 0 then .nothingSent db none
      else
        let outcome := trySend wallet pool failure amounts balances db
        let thrown := match outcome.thrown with
          | some (.payment _) => none
          | thrown => thrown
        { outcome with thrown := wallet.lock.or thrown }

end ErgoPayoutHandler

end Miningcore

/-!
# Classification of Ergo blocks

All blocks that the node has at the height of a row are searched for one that the
pool has mined, by the key and the nonce of its solution, with a transaction of
the wallet that pays the reward.

## Implementation notes

The node is asked for each row anew, so its answers belong to a row; `none` is a
call that failed. Transactions stand for the answers of the wallet about them.
Decimals and doubles are rational numbers.
-/

namespace Miningcore

open Foundation

namespace Ergo

structure TransactionOutput where
  address : String
  value : ℤ
  /-- The amounts of the assets. -/
  assets : List ℤ
deriving DecidableEq

structure WalletTransaction where
  outputs : List TransactionOutput
  numConfirmations : ℤ
deriving DecidableEq

structure FullBlock where
  id : String
  pk : String
  n : String
  /-- What the wallet answers about the transactions. -/
  transactions : List (Option WalletTransaction)
deriving DecidableEq

/-- The answers to the calls of a classification. -/
structure Node where
  minerRewardPubkey : Except Exception String
  minerRewardAddress : Except Exception String
  /-- The call for the headers at the height of a row, and for each the call for its block. -/
  fullBlocksAt : Block → Option (List (Option FullBlock))

end Ergo

structure ErgoClassifyConfig where
  minimumConfirmations : Option ℤ
  network : String
deriving DecidableEq

def ErgoClassifyConfig.minConfirmations (config : ErgoClassifyConfig) : ℤ :=
  config.minimumConfirmations.getD (if config.network = "mainnet" then 720 else 72)

namespace ErgoPayoutHandler

open Ergo

/-- The search for the block of a row. -/
structure Search where
  block : Block
  handled : Bool := false
  pkMismatchCount : ℕ := 0
  nonceMismatchCount : ℕ := 0
  coinbaseNonWalletTxCount : ℕ := 0
deriving DecidableEq

section search

variable (minConfirmations : ℤ) (pubkey address : String)

def coinbaseOutput (walletTx : WalletTransaction) : Option TransactionOutput :=
  walletTx.outputs.find? fun output => output.address = address

/-- A transaction of a block that the pool has mined. -/
def searchTransaction (fullBlock : FullBlock) (walletTx : Option WalletTransaction)
    (found : Block × Bool) : Block × Bool :=
  match walletTx with
  | none => found
  | some walletTx =>
      match coinbaseOutput address walletTx with
      | none => found
      | some output =>
          let block := { found.1 with
            confirmationProgress := min 1 (walletTx.numConfirmations / minConfirmations)
            hash := some fullBlock.id
            reward := found.1.reward + (output.value - output.assets.headD 0) / smallestUnit }
          if minConfirmations ≤ walletTx.numConfirmations then
            ({ block with status := .confirmed, confirmationProgress := 1 }, true)
          else (block, true)

def searchTransactions (fullBlock : FullBlock) :
    List (Option WalletTransaction) → Block × Bool → Guarded Exception (Block × Bool)
  | [], found => pure found
  | answer :: rest, found => do
      let walletTx ← Guarded.ask answer
      searchTransactions fullBlock rest
        (searchTransaction minConfirmations address fullBlock walletTx found)

def searchBlock (fullBlock : FullBlock) (search : Search) : Guarded Exception Search :=
  if fullBlock.pk ≠ pubkey then
    pure { search with pkMismatchCount := search.pkMismatchCount + 1 }
  else if fullBlock.n ≠ search.block.transactionConfirmationData then
    pure { search with nonceMismatchCount := search.nonceMismatchCount + 1 }
  else do
    let (block, coinbaseWalletTxFound) ← searchTransactions minConfirmations address fullBlock
      fullBlock.transactions ({ search.block with reward := 0 }, false)
    if coinbaseWalletTxFound then pure { search with block := block, handled := true }
    else
      pure { search with
        block := block
        coinbaseNonWalletTxCount := search.coinbaseNonWalletTxCount + 1 }

def searchBlocks : List (Option FullBlock) → Search → Guarded Exception Search
  | [], search => pure search
  | answer :: rest, search =>
      if search.handled then pure search
      else
        match answer with
        | none => searchBlocks rest search
        | some fullBlock => do
            let search ← searchBlock minConfirmations pubkey address fullBlock search
            searchBlocks rest search

def orphanReason (search : Search) (length : ℕ) : Option String :=
  if search.pkMismatchCount = length then some "pk mismatch"
  else if search.nonceMismatchCount = length then some "nonce mismatch"
  else if search.coinbaseNonWalletTxCount = length then
    some "no related coinbase tx found in wallet"
  else none

def classifyBlock (fullBlocks : Option (List (Option FullBlock))) (block : Block) :
    Guarded Exception (Option Block) := do
  let headerIds ← Guarded.ask fullBlocks
  match headerIds with
  | none => pure none
  | some answers => do
      let blockBatch ← Guarded.askAll answers
      let search ← searchBlocks minConfirmations pubkey address blockBatch { block := block }
      if search.handled then pure (some search.block)
      else if (orphanReason search blockBatch.length).isSome then
        pure (some { search.block with status := .orphaned, reward := 0 })
      else pure none

end search

/-- `ClassifyBlocksAsync`, which goes through the pages of the blocks in order. -/
def classifyBlocks (config : ErgoClassifyConfig) (node : Node) (blocks : List Block) :
    Except Exception (List Block) :=
  if blocks.isEmpty then .ok blocks
  else
    match node.minerRewardPubkey with
    | .error e => .error e
    | .ok pubkey =>
        match node.minerRewardAddress with
        | .error e => .error e
        | .ok address =>
            classifyEach (fun block => classifyBlock config.minConfirmations pubkey address
              (node.fullBlocksAt block) block) blocks

/-! ## What the search of a row finds -/

section verdicts

variable {minConfirmations : ℤ} {pubkey address data : String}

/-- The wallet knows the transaction, and it pays the reward. -/
def paysReward (address : String) (answer : Option WalletTransaction) : Bool :=
  answer.any fun walletTx => (coinbaseOutput address walletTx).isSome

/-- The pool has mined the block for the row. -/
def minedBlock (pubkey data : String) (fullBlock : FullBlock) : Bool :=
  fullBlock.pk = pubkey && fullBlock.n = data

def pkMismatch (pubkey : String) (answer : Option FullBlock) : Bool :=
  answer.any fun fullBlock => fullBlock.pk ≠ pubkey

def nonceMismatch (pubkey data : String) (answer : Option FullBlock) : Bool :=
  answer.any fun fullBlock => fullBlock.pk = pubkey && fullBlock.n ≠ data

/-- The pool has mined the block, and no transaction of it is known to pay the reward. -/
def coinbaseNonWallet (pubkey address data : String) (answer : Option FullBlock) : Bool :=
  answer.any fun fullBlock => minedBlock pubkey data fullBlock &&
    !fullBlock.transactions.any (paysReward address)

/-- If the pool has mined the block, the wallet has answered about all its transactions. -/
def walletAnswered (pubkey data : String) (answer : Option FullBlock) : Bool :=
  answer.all fun fullBlock => !minedBlock pubkey data fullBlock ||
    fullBlock.transactions.all Option.isSome

/-- The row has been found or is left as it was. -/
def Kept (block block' : Block) : Prop :=
  block'.id = block.id ∧ (block'.status = block.status ∨ block'.status = .confirmed)

theorem Kept.refl (block : Block) : Kept block block := ⟨rfl, Or.inl rfl⟩

theorem Kept.trans {block block' block'' : Block} (h : Kept block block')
    (h' : Kept block' block'') :
    Kept block block'' := by
  refine ⟨h'.1.trans h.1, ?_⟩
  obtain hstatus | hstatus := h'.2
  · rw [hstatus]
    exact h.2
  · exact Or.inr hstatus

theorem searchTransaction_of_not_pays {fullBlock : FullBlock} {answer : Option WalletTransaction}
    (h : paysReward address answer = false) (found : Block × Bool) :
    searchTransaction minConfirmations address fullBlock answer found = found := by
  cases answer with
  | none => rfl
  | some walletTx =>
      have hnone : coinbaseOutput address walletTx = none :=
        Option.isNone_iff_eq_none.mp (Option.isSome_eq_false_iff.mp h)
      rw [searchTransaction, hnone]

theorem searchTransaction_of_pays {fullBlock : FullBlock} {answer : Option WalletTransaction}
    (h : paysReward address answer = true) (found : Block × Bool) :
    (searchTransaction minConfirmations address fullBlock answer found).2 = true ∧
      Kept found.1 (searchTransaction minConfirmations address fullBlock answer found).1 := by
  cases answer with
  | none => contradiction
  | some walletTx =>
      obtain ⟨output, houtput⟩ := Option.isSome_iff_exists.mp h
      rw [searchTransaction, houtput]
      dsimp only
      split
      · exact ⟨rfl, rfl, Or.inr rfl⟩
      · exact ⟨rfl, rfl, Or.inl rfl⟩

/-- The transactions of a block change nothing unless one of them pays the reward. -/
theorem searchTransactions_cases (fullBlock : FullBlock) (answers : List (Option WalletTransaction))
    (found : Block × Bool) :
    answers.any (paysReward address) = false ∧
        searchTransactions minConfirmations address fullBlock answers found =
          ⟨.ok found, answers.all Option.isSome⟩ ∨
      answers.any (paysReward address) = true ∧ ∃ block,
        (searchTransactions minConfirmations address fullBlock answers found).outcome =
          .ok (block, true) ∧ Kept found.1 block := by
  induction answers generalizing found with
  | nil => exact Or.inl ⟨rfl, rfl⟩
  | cons answer answers ih =>
      rw [searchTransactions, Guarded.bind_of_outcome_ok rfl, List.any_cons, List.all_cons]
      cases hpays : paysReward address answer with
      | false =>
          rw [searchTransaction_of_not_pays hpays]
          obtain ⟨hrest, hsearch⟩ | ⟨hrest, block, hblock, hkept⟩ := ih found
          · refine Or.inl ⟨hrest, ?_⟩
            rw [hsearch]
            rfl
          · exact Or.inr ⟨hrest, block, hblock, hkept⟩
      | true =>
          obtain ⟨hfound, hkept⟩ := @searchTransaction_of_pays minConfirmations address fullBlock
            answer hpays found
          refine Or.inr ⟨rfl, ?_⟩
          obtain ⟨-, hsearch⟩ | ⟨-, block, hblock, hkept'⟩ :=
            ih (searchTransaction minConfirmations address fullBlock answer found)
          · rw [hsearch]
            exact ⟨_, congrArg Except.ok (Prod.ext rfl hfound), hkept⟩
          · exact ⟨block, hblock, hkept.trans hkept'⟩

/-- What a search without a result knows about the blocks it has seen. -/
structure Unhandled (pubkey address : String) (answers : List (Option FullBlock))
    (search search' : Search) : Prop where
  handled : search'.handled = false
  pkMismatchCount : search'.pkMismatchCount =
    search.pkMismatchCount + answers.countP (pkMismatch pubkey)
  nonceMismatchCount : search'.nonceMismatchCount = search.nonceMismatchCount +
    answers.countP (nonceMismatch pubkey search.block.transactionConfirmationData)
  coinbaseNonWalletTxCount : search'.coinbaseNonWalletTxCount = search.coinbaseNonWalletTxCount +
    answers.countP (coinbaseNonWallet pubkey address search.block.transactionConfirmationData)
  data : search'.block.transactionConfirmationData = search.block.transactionConfirmationData
  kept : Kept search.block search'.block

/-- A block that the pool has mined and the wallet is paid by ends the search. -/
def Handled (pubkey address : String) (answers : List (Option FullBlock))
    (search search' : Search) : Prop :=
  search'.handled = true ∧ Kept search.block search'.block ∧ ∃ answer ∈ answers,
    coinbaseNonWallet pubkey address search.block.transactionConfirmationData answer = false

/-- The searches of the blocks of a batch, one after another. -/
theorem Unhandled.append {answers answers' : List (Option FullBlock)}
    {search search' search'' : Search} (h : Unhandled pubkey address answers search search')
    (h' : Unhandled pubkey address answers' search' search'') :
    Unhandled pubkey address (answers ++ answers') search search'' where
  handled := h'.handled
  pkMismatchCount := by
    rw [h'.pkMismatchCount, h.pkMismatchCount, List.countP_append, add_assoc]
  nonceMismatchCount := by
    rw [h'.nonceMismatchCount, h.nonceMismatchCount, h.data, List.countP_append, add_assoc]
  coinbaseNonWalletTxCount := by
    rw [h'.coinbaseNonWalletTxCount, h.coinbaseNonWalletTxCount, h.data, List.countP_append,
      add_assoc]
  data := h'.data.trans h.data
  kept := h.kept.trans h'.kept

theorem searchBlock_cases (fullBlock : FullBlock) {search : Search}
    (hsearch : search.handled = false) :
    (∃ search', searchBlock minConfirmations pubkey address fullBlock search = ⟨.ok search',
        walletAnswered pubkey search.block.transactionConfirmationData (some fullBlock)⟩ ∧
          Unhandled pubkey address [some fullBlock] search search') ∨
      ∃ search', (searchBlock minConfirmations pubkey address fullBlock search).outcome =
        .ok search' ∧ Handled pubkey address [some fullBlock] search search' := by
  rw [searchBlock]
  by_cases hpk : fullBlock.pk = pubkey
  · rw [if_neg (not_not_intro hpk)]
    by_cases hn : fullBlock.n = search.block.transactionConfirmationData
    · rw [if_neg (not_not_intro hn)]
      obtain ⟨hnone, hresult⟩ | ⟨hpays, block, hblock, hkept⟩ :=
        @searchTransactions_cases minConfirmations address fullBlock fullBlock.transactions
          ({ search.block with reward := 0 }, false)
      · refine Or.inl ⟨_, (Guarded.bind_of_outcome_ok (congrArg Guarded.outcome hresult) _).trans
          (congrArg (Guarded.mk _) ?_), ?_⟩
        · rw [hresult]
          simp [walletAnswered, minedBlock, hpk, hn]
        · constructor <;>
            simp [hsearch, pkMismatch, nonceMismatch, coinbaseNonWallet, minedBlock, hpk, hn, hnone,
              Kept]
      · refine Or.inr ⟨{ search with block := block, handled := true }, ?_, rfl, hkept,
          some fullBlock, List.mem_singleton_self _, ?_⟩
        · rw [Guarded.bind_of_outcome_ok hblock]
          rfl
        · simp [coinbaseNonWallet, hpays]
    · rw [if_pos hn]
      refine Or.inl ⟨{ search with nonceMismatchCount := search.nonceMismatchCount + 1 }, ?_, ?_⟩
      · simp [walletAnswered, minedBlock, hn]
        rfl
      · constructor <;>
          simp [hsearch, pkMismatch, nonceMismatch, coinbaseNonWallet, minedBlock, hpk, hn, Kept]
  · rw [if_pos hpk]
    refine Or.inl ⟨{ search with pkMismatchCount := search.pkMismatchCount + 1 }, ?_, ?_⟩
    · simp [walletAnswered, minedBlock, hpk]
      rfl
    · constructor <;>
        simp [hsearch, pkMismatch, nonceMismatch, coinbaseNonWallet, minedBlock, hpk, Kept]

theorem searchBlocks_of_handled {search : Search} (h : search.handled = true)
    (answers : List (Option FullBlock)) :
    searchBlocks minConfirmations pubkey address answers search = pure search := by
  cases answers with
  | nil => rfl
  | cons answer answers => cases answer <;> rw [searchBlocks, if_pos h]

theorem searchBlocks_cases (answers : List (Option FullBlock)) {search : Search}
    (hsearch : search.handled = false) :
    (∃ search', searchBlocks minConfirmations pubkey address answers search = ⟨.ok search',
        answers.all (walletAnswered pubkey search.block.transactionConfirmationData)⟩ ∧
          Unhandled pubkey address answers search search') ∨
      ∃ search', (searchBlocks minConfirmations pubkey address answers search).outcome =
        .ok search' ∧ Handled pubkey address answers search search' := by
  induction answers generalizing search with
  | nil => exact Or.inl ⟨search, rfl, hsearch, rfl, rfl, rfl, rfl, Kept.refl _⟩
  | cons answer answers ih =>
      have hopen : ¬search.handled = true := by
        rw [hsearch]
        decide
      cases answer with
      | none =>
          rw [searchBlocks, if_neg hopen]
          have hunseen : Unhandled pubkey address [none] search search :=
            ⟨hsearch, rfl, rfl, rfl, rfl, Kept.refl _⟩
          obtain ⟨search', hresult, hunhandled⟩ | ⟨search', hresult, hhandled, hkept, answer,
            hanswer, hpays⟩ := ih hsearch
          · exact Or.inl ⟨search', hresult, hunseen.append hunhandled⟩
          · exact Or.inr ⟨search', hresult, hhandled, hkept, answer,
              List.mem_cons_of_mem _ hanswer, hpays⟩
      | some fullBlock =>
          rw [searchBlocks, if_neg hopen]
          obtain ⟨next, hnext, hunhandled⟩ | ⟨next, hnext, hhandled, hkept, other, hother, hpays⟩ :=
            @searchBlock_cases minConfirmations pubkey address fullBlock search hsearch
          · rw [Guarded.bind_of_outcome_ok (congrArg Guarded.outcome hnext), hnext]
            obtain ⟨search', hresult, hunhandled'⟩ | ⟨search', hresult, hhandled, hkept, answer,
              hanswer, hpays⟩ := ih hunhandled.handled
            · refine Or.inl ⟨search', ?_, hunhandled.append hunhandled'⟩
              rw [hresult, hunhandled.data, List.all_cons]
            · rw [hunhandled.data] at hpays
              exact Or.inr ⟨search', hresult, hhandled, hunhandled.kept.trans hkept, answer,
                List.mem_cons_of_mem _ hanswer, hpays⟩
          · rw [Guarded.bind_of_outcome_ok hnext, searchBlocks_of_handled hhandled]
            exact Or.inr ⟨next, rfl, hhandled, hkept, other,
              List.mem_cons.mpr (Or.inl (List.mem_singleton.mp hother)), hpays⟩

/-- The node gives the blocks at the height, and a block for each of them that the pool has mined;
no transaction of them is known to pay the reward, and the wallet has not answered about one. -/
def OutageOrphans (pubkey address : String) (fullBlocks : Option (List (Option FullBlock)))
    (block : Block) : Prop :=
  ∃ answers, fullBlocks = some answers ∧
    (∀ answer ∈ answers,
      coinbaseNonWallet pubkey address block.transactionConfirmationData answer = true) ∧
    ∃ fullBlock, some fullBlock ∈ answers ∧ none ∈ fullBlock.transactions

theorem answered_of_pkMismatch {answer : Option FullBlock} (h : pkMismatch pubkey answer = true) :
    answer.isSome = true ∧ walletAnswered pubkey data answer = true := by
  cases answer with
  | none => contradiction
  | some fullBlock =>
      have hpk : fullBlock.pk ≠ pubkey := of_decide_eq_true h
      simp [walletAnswered, minedBlock, hpk]

theorem answered_of_nonceMismatch {answer : Option FullBlock}
    (h : nonceMismatch pubkey data answer = true) :
    answer.isSome = true ∧ walletAnswered pubkey data answer = true := by
  cases answer with
  | none => contradiction
  | some fullBlock =>
      have hn : fullBlock.n ≠ data := of_decide_eq_true (Bool.and_eq_true_iff.mp h).2
      simp [walletAnswered, minedBlock, hn]

/-- For a block that the pool has mined the wallet is asked about each transaction. -/
theorem walletAnswered_of_coinbaseNonWallet {answer : Option FullBlock}
    (h : coinbaseNonWallet pubkey address data answer = true) :
    ∃ fullBlock, answer = some fullBlock ∧
      (walletAnswered pubkey data answer = true ↔ none ∉ fullBlock.transactions) := by
  cases answer with
  | none => contradiction
  | some fullBlock =>
      have hmined : minedBlock pubkey data fullBlock = true := (Bool.and_eq_true_iff.mp h).1
      refine ⟨fullBlock, rfl, ?_⟩
      have hasked : walletAnswered pubkey data (some fullBlock) =
          fullBlock.transactions.all Option.isSome := by
        rw [walletAnswered, Option.all_some, hmined]
        rfl
      rw [hasked, List.all_eq_true]
      constructor
      · intro hall hnone
        exact absurd (hall none hnone) (by decide)
      · intro hnone answer hanswer
        cases answer with
        | none => exact absurd hanswer hnone
        | some walletTx => rfl

theorem all_answered {answers : List (Option FullBlock)}
    (h : ∀ answer ∈ answers, answer.isSome = true ∧ walletAnswered pubkey data answer = true) :
    (answers.all Option.isSome && answers.all (walletAnswered pubkey data)) = true := by
  rw [Bool.and_eq_true_iff, List.all_eq_true, List.all_eq_true]
  exact ⟨fun answer hanswer => (h answer hanswer).1, fun answer hanswer => (h answer hanswer).2⟩

theorem isSome_orphanReason {search : Search} {length : ℕ} :
    (orphanReason search length).isSome = true ↔ search.pkMismatchCount = length ∨
      search.nonceMismatchCount = length ∨ search.coinbaseNonWalletTxCount = length := by
  rw [orphanReason]
  split_ifs with hpk hnonce hcoinbase <;> simp_all

/-- A row is orphaned when all the blocks at its height are passed over for the same reason. -/
theorem Unhandled.orphanReason_iff {answers : List (Option FullBlock)} {block : Block}
    {search : Search} (h : Unhandled pubkey address answers { block := block } search) :
    (orphanReason search answers.length).isSome = true ↔
      (∀ answer ∈ answers, pkMismatch pubkey answer = true) ∨
        (∀ answer ∈ answers,
          nonceMismatch pubkey block.transactionConfirmationData answer = true) ∨
        ∀ answer ∈ answers,
          coinbaseNonWallet pubkey address block.transactionConfirmationData answer = true := by
  rw [isSome_orphanReason, h.pkMismatchCount, h.nonceMismatchCount, h.coinbaseNonWalletTxCount]
  simp only [Nat.zero_add, List.countP_eq_length]

theorem classifyBlock_none (block : Block) :
    classifyBlock minConfirmations pubkey address none block = ⟨.ok none, false⟩ := rfl

/-- A row is found, or orphaned or passed over by what all the blocks at its height are. -/
theorem classifyBlock_cases (answers : List (Option FullBlock)) (block : Block) :
    (∃ search, Unhandled pubkey address answers { block := block } search ∧
        classifyBlock minConfirmations pubkey address (some answers) block =
          ⟨.ok (if (orphanReason search answers.length).isSome then
              some { search.block with status := .orphaned, reward := 0 } else none),
            answers.all Option.isSome &&
              answers.all (walletAnswered pubkey block.transactionConfirmationData)⟩) ∨
      ∃ result, (classifyBlock minConfirmations pubkey address (some answers) block).outcome =
          .ok (some result) ∧ Kept block result ∧ ∃ answer ∈ answers,
        coinbaseNonWallet pubkey address block.transactionConfirmationData answer = false := by
  rw [classifyBlock, Guarded.bind_of_outcome_ok rfl]
  dsimp only
  rw [Guarded.bind_of_outcome_ok rfl]
  obtain ⟨search, hsearch, hunhandled⟩ | ⟨search, hsearch, hhandled, hkept, hpays⟩ :=
    @searchBlocks_cases minConfirmations pubkey address answers { block := block } rfl
  · refine Or.inl ⟨search, hunhandled, ?_⟩
    rw [hsearch, Guarded.bind_of_outcome_ok rfl]
    dsimp only
    rw [if_neg (by rw [hunhandled.handled]; decide)]
    split
    · rw [Guarded.answered_pure, Bool.and_true]
      rfl
    · rw [Guarded.answered_pure, Bool.and_true]
      rfl
  · refine Or.inr ⟨search.block, ?_, hkept, hpays⟩
    rw [Guarded.bind_of_outcome_ok hsearch]
    dsimp only
    rw [if_pos hhandled]
    rfl

/-- A row whose key and address are there never throws. -/
theorem exists_classifyBlock (fullBlocks : Option (List (Option FullBlock))) (block : Block) :
    ∃ result, (classifyBlock minConfirmations pubkey address fullBlocks block).outcome =
      .ok result := by
  cases fullBlocks with
  | none => exact ⟨none, rfl⟩
  | some answers =>
      obtain ⟨search, -, hsearch⟩ | ⟨result, hresult, -⟩ :=
        @classifyBlock_cases minConfirmations pubkey address answers block
      · exact ⟨_, congrArg Guarded.outcome hsearch⟩
      · exact ⟨some result, hresult⟩

theorem keepsKey_classifyBlock (fullBlocks : Block → Option (List (Option FullBlock))) :
    KeepsKey fun block =>
      classifyBlock minConfirmations pubkey address (fullBlocks block) block := by
  intro block result hresult
  dsimp only at hresult
  cases hblocks : fullBlocks block with
  | none =>
      rw [hblocks, classifyBlock_none] at hresult
      exact absurd (Except.ok.inj hresult) (Option.some_ne_none result).symm
  | some answers =>
      rw [hblocks] at hresult
      obtain ⟨search, hunhandled, hsearch⟩ | ⟨found, hfound, hkept, -⟩ :=
        @classifyBlock_cases minConfirmations pubkey address answers block
      · rw [hsearch] at hresult
        have hreturned := Except.ok.inj hresult
        split at hreturned
        · obtain rfl := Option.some.inj hreturned
          exact hunhandled.kept.1
        · contradiction
      · rw [hfound] at hresult
        obtain rfl := Option.some.inj (Except.ok.inj hresult)
        exact hkept.1

theorem orphanedUnanswered_classifyBlock_iff (fullBlocks : Block → Option (List (Option FullBlock)))
    {block : Block} (hpending : block.status = .pending) :
    OrphanedUnanswered (fun block =>
        classifyBlock minConfirmations pubkey address (fullBlocks block) block) block ↔
      OutageOrphans pubkey address (fullBlocks block) block := by
  rw [OrphanedUnanswered, OutageOrphans]
  generalize fullBlocks block = fullBlocks
  cases fullBlocks with
  | none =>
      refine iff_of_false ?_ ?_
      · rintro ⟨-, result, hresult, -⟩
        rw [classifyBlock_none] at hresult
        exact Option.some_ne_none result (Except.ok.inj hresult).symm
      · rintro ⟨answers, hanswers, -⟩
        contradiction
  | some answers =>
      obtain ⟨search, hunhandled, hsearch⟩ | ⟨found, hfound, hkept, answer, hanswer, hpays⟩ :=
        @classifyBlock_cases minConfirmations pubkey address answers block
      · rw [hsearch]
        constructor
        · rintro ⟨hanswered, result, hresult, -⟩
          have hreason : (orphanReason search answers.length).isSome = true := by
            by_contra hnot
            rw [if_neg hnot] at hresult
            exact Option.some_ne_none result (Except.ok.inj hresult).symm
          obtain hpk | hnonce | hcoinbase := hunhandled.orphanReason_iff.mp hreason
          · rw [all_answered fun answer hanswer => answered_of_pkMismatch (hpk answer hanswer)]
              at hanswered
            contradiction
          · rw [all_answered fun answer hanswer =>
              answered_of_nonceMismatch (hnonce answer hanswer)] at hanswered
            contradiction
          · refine ⟨answers, rfl, hcoinbase, ?_⟩
            by_contra hall
            have hgiven : ∀ answer ∈ answers, answer.isSome = true ∧
                walletAnswered pubkey block.transactionConfirmationData answer = true := by
              intro answer hanswer
              obtain ⟨fullBlock, rfl, hasked⟩ :=
                walletAnswered_of_coinbaseNonWallet (hcoinbase answer hanswer)
              exact ⟨rfl, hasked.mpr fun hnone => hall ⟨fullBlock, hanswer, hnone⟩⟩
            rw [all_answered hgiven] at hanswered
            contradiction
        · rintro ⟨others, hothers, hcoinbase, fullBlock, hmem, hnone⟩
          obtain rfl := Option.some.inj hothers
          rw [if_pos (hunhandled.orphanReason_iff.mpr (Or.inr (Or.inr hcoinbase)))]
          obtain ⟨other, hother, hasked⟩ :=
            walletAnswered_of_coinbaseNonWallet (hcoinbase (some fullBlock) hmem)
          obtain rfl := Option.some.inj hother
          refine ⟨?_, _, rfl, rfl⟩
          rw [Bool.and_eq_false_iff, List.all_eq_false, List.all_eq_false]
          exact Or.inr ⟨some fullBlock, hmem, fun hall => hasked.mp hall hnone⟩
      · rw [hfound]
        refine iff_of_false ?_ ?_
        · rintro ⟨-, result, hresult, horphaned⟩
          obtain rfl := Option.some.inj (Except.ok.inj hresult)
          obtain ⟨-, hstatus | hstatus⟩ := hkept
          · rw [hpending, horphaned] at hstatus
            contradiction
          · rw [horphaned] at hstatus
            contradiction
        · rintro ⟨others, hothers, hnone, -⟩
          obtain rfl := Option.some.inj hothers
          rw [hnone answer hanswer] at hpays
          contradiction

end verdicts

/-- The classification of a row, with the calls for the key and the address of the reward. -/
def classifyRow (config : ErgoClassifyConfig) (node : Node) (block : Block) :
    Guarded Exception (Option Block) := do
  let pubkey ← Guarded.call node.minerRewardPubkey
  let address ← Guarded.call node.minerRewardAddress
  classifyBlock config.minConfirmations pubkey address (node.fullBlocksAt block) block

theorem classifyRow_of_ok {config : ErgoClassifyConfig} {node : Node} {pubkey address : String}
    (hpubkey : node.minerRewardPubkey = .ok pubkey)
    (haddress : node.minerRewardAddress = .ok address) :
    classifyRow config node = fun block =>
      classifyBlock config.minConfirmations pubkey address (node.fullBlocksAt block) block := by
  funext block
  rw [classifyRow, hpubkey, haddress]
  rfl

/-- Without the key or the address every row throws. -/
theorem classifyRow_of_error {config : ErgoClassifyConfig} {node : Node}
    (h : ∀ pubkey address, node.minerRewardPubkey = .ok pubkey →
      node.minerRewardAddress ≠ .ok address) :
    ∃ e, classifyRow config node = fun _ => ⟨.error e, false⟩ := by
  cases hpubkey : node.minerRewardPubkey with
  | error e =>
      refine ⟨e, funext fun block => ?_⟩
      rw [classifyRow, hpubkey]
      rfl
  | ok pubkey =>
      cases haddress : node.minerRewardAddress with
      | error e =>
          refine ⟨e, funext fun block => ?_⟩
          rw [classifyRow, hpubkey, haddress]
          rfl
      | ok address => exact absurd haddress (h pubkey address hpubkey)

/-- The key and the address are asked for once, which is before the first row. -/
theorem classifyBlocks_eq (config : ErgoClassifyConfig) (node : Node) :
    classifyBlocks config node = classifyEach (classifyRow config node) := by
  funext blocks
  cases blocks with
  | nil => rfl
  | cons block blocks =>
      rw [classifyBlocks, if_neg (by simp)]
      cases hpubkey : node.minerRewardPubkey with
      | error e =>
          rw [classifyEach, classifyRow, hpubkey]
          rfl
      | ok pubkey =>
          cases haddress : node.minerRewardAddress with
          | error e =>
              rw [classifyEach, classifyRow, hpubkey, haddress]
              rfl
          | ok address => rw [classifyRow_of_ok hpubkey haddress]

/-- A row is orphaned for an outage, under the key and the address that the node gives. -/
def RowOutageOrphans (node : Node) (block : Block) : Prop :=
  ∃ pubkey address, node.minerRewardPubkey = .ok pubkey ∧ node.minerRewardAddress = .ok address ∧
    OutageOrphans pubkey address (node.fullBlocksAt block) block

theorem keepsKey_classifyRow (config : ErgoClassifyConfig) (node : Node) :
    KeepsKey (classifyRow config node) := by
  by_cases h : ∃ pubkey address, node.minerRewardPubkey = .ok pubkey ∧
      node.minerRewardAddress = .ok address
  · obtain ⟨pubkey, address, hpubkey, haddress⟩ := h
    rw [classifyRow_of_ok hpubkey haddress]
    exact keepsKey_classifyBlock node.fullBlocksAt
  · push Not at h
    obtain ⟨e, he⟩ := @classifyRow_of_error config node h
    rw [he]
    intro block result hresult
    contradiction

theorem orphanedUnanswered_classifyRow_iff (config : ErgoClassifyConfig) (node : Node)
    {block : Block} (hpending : block.status = .pending) :
    OrphanedUnanswered (classifyRow config node) block ↔ RowOutageOrphans node block := by
  by_cases h : ∃ pubkey address, node.minerRewardPubkey = .ok pubkey ∧
      node.minerRewardAddress = .ok address
  · obtain ⟨pubkey, address, hpubkey, haddress⟩ := h
    rw [classifyRow_of_ok hpubkey haddress,
      orphanedUnanswered_classifyBlock_iff node.fullBlocksAt hpending, RowOutageOrphans, hpubkey,
      haddress]
    simp
  · rw [RowOutageOrphans]
    push Not at h
    obtain ⟨e, he⟩ := @classifyRow_of_error config node h
    rw [he]
    refine iff_of_false ?_ ?_
    · rintro ⟨-, result, hresult, -⟩
      contradiction
    · rintro ⟨pubkey, address, hpubkey, haddress, -⟩
      exact h pubkey address hpubkey haddress

/-- When the cycles of an Ergo pool keep what the node did not answer for. A row that throws is
never one that is orphaned: they all throw. -/
theorem keepsUnanswered_classifyBlocks_iff {pool : PoolConfig} (config : ErgoClassifyConfig)
    (node : Node) {rows : List Block} (hids : (rows.map Block.id).Nodup) :
    KeepsUnanswered pool (classifyBlocks config node)
        (fun row => (classifyRow config node row).answered = false) rows ↔
      ∀ row ∈ BlockRepository.getPendingBlocksForPool rows pool.id, ¬RowOutageOrphans node row := by
  rw [classifyBlocks_eq, keepsUnanswered_iff (keepsKey_classifyRow config node) hids]
  have horphaned : (∀ row ∈ BlockRepository.getPendingBlocksForPool rows pool.id,
      ¬OrphanedUnanswered (classifyRow config node) row) ↔
        ∀ row ∈ BlockRepository.getPendingBlocksForPool rows pool.id,
          ¬RowOutageOrphans node row :=
    forall₂_congr fun row hrow => not_congr
      (orphanedUnanswered_classifyRow_iff config node (mem_pending_iff.mp hrow).2.2)
  rw [horphaned]
  refine or_iff_right_of_imp ?_
  rintro ⟨failed, -, e, he⟩ row - ⟨pubkey, address, hpubkey, haddress, -⟩
  obtain ⟨result, hresult⟩ := @exists_classifyBlock config.minConfirmations pubkey address
    (node.fullBlocksAt failed) failed
  rw [classifyRow_of_ok hpubkey haddress, hresult] at he
  contradiction

end ErgoPayoutHandler

end Miningcore
