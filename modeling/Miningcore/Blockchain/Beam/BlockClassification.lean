import Mathlib.Data.List.Infix
import Miningcore.Blockchain.Beam.BeamJobManager
import Miningcore.Extensions.UnsignedArithmetic
import Miningcore.Foundation.EarlyExit
import Miningcore.Payments.PaymentPersistence

/-!
# Classification of Beam blocks

The header at the height of a row is compared with what the row has recorded: its
proof of work with a hash that is there, its hash with the confirmation data
otherwise.

## Implementation notes

`none` stands for null, and for an empty text as well where the code asks for
either. Decimals and doubles are rational numbers.
-/

namespace Miningcore

open Foundation Beam

namespace BeamPayoutHandler

structure GetBlockHeaderResponse where
  blockHash : Option String
  pow : Option String
deriving DecidableEq

/-- The answers of the wallet and of the explorer about a row. -/
structure Node where
  header : RpcResponse GetBlockHeaderResponse
  /-- The subsidy of the block at the height. -/
  subsidy : Except Exception ℕ

def smallestUnit : ℚ := 10 ^ 8

def payoutMinBlockConfirmations : ℕ := 240

/-- A text that is not null or empty. -/
def given (text : Option String) : Option String := text.filter fun text => text ≠ ""

def contains (text part : String) : Bool := decide (part.toList <:+: text.toList)

def isOrphaned (block : Block) (response : Option GetBlockHeaderResponse) : Bool :=
  match given block.hash with
  | some hash =>
      match given (response.bind GetBlockHeaderResponse.pow) with
      | some pow => !contains pow hash
      | none => false
  | none =>
      match given (response.bind GetBlockHeaderResponse.blockHash) with
      | some blockHash => blockHash = block.transactionConfirmationData
      | none => false

/-- Decides about a row with the height of the explorer's last block. A row whose header is refused
is not returned. -/
def classifyBlock (lastHeight : ℕ) (node : Node) (block : Block) :
    Except Exception (Option Block) :=
  if node.header.error.isSome then .ok none
  else
    let behind := subUlong lastHeight block.blockHeight
    let confirmationProgress := min 1 ((behind : ℚ) / payoutMinBlockConfirmations)
    if isOrphaned block node.header.response then
      .ok (some { block with
        confirmationProgress, hash := none, status := .orphaned, reward := 0 })
    else if payoutMinBlockConfirmations ≤ behind then
      match node.subsidy with
      | .error e => .error e
      | .ok subsidy =>
          .ok (some { block with
            hash := if (given block.hash).isSome then
              node.header.response.bind GetBlockHeaderResponse.blockHash else none
            status := .confirmed
            confirmationProgress := 1
            reward := subsidy / smallestUnit })
    else .ok (some { block with confirmationProgress })

/-- `ClassifyBlocksAsync`, which goes through the pages of the blocks in order. -/
def classifyBlocks (lastHeight : Except Exception ℕ) (node : Block → Node) (blocks : List Block) :
    Except Exception (List Block) :=
  match lastHeight with
  | .error e => .error e
  | .ok lastHeight =>
      blocks.foldr (fun block results =>
        match classifyBlock lastHeight (node block) block, results with
        | .error e, _ => .error e
        | .ok _, .error e => .error e
        | .ok block, .ok results => .ok (block.toList ++ results)) (.ok [])

/-- The header shows the block that the row has recorded, whatever the case of the digits. -/
def IsRecorded (block : Block) (response : Option GetBlockHeaderResponse) : Prop :=
  match given block.hash with
  | some hash => ∃ pow ∈ given (response.bind GetBlockHeaderResponse.pow),
      ignoringCase hash.toList <:+: ignoringCase pow.toList
  | none => ∃ blockHash ∈ given (response.bind GetBlockHeaderResponse.blockHash),
      ignoringCase blockHash.toList = ignoringCase block.transactionConfirmationData.toList

/-- A row is confirmed only as a block of the pool, and orphaned only when it is none. -/
def JudgesRightly (lastHeight : ℕ) (node : Node) (block : Block) : Prop :=
  ∀ result ∈ (classifyBlock lastHeight node block).toOption.join,
    (result.status = .confirmed → IsRecorded block node.header.response) ∧
      (result.status = .orphaned → ¬ IsRecorded block node.header.response)

/-- The block is deep enough, and the explorer knows its subsidy. -/
def Settles (lastHeight height : ℕ) (node : Node) : Prop :=
  payoutMinBlockConfirmations ≤ subUlong lastHeight height ∧ node.subsidy.toOption.isSome

variable {lastHeight : ℕ} {node : Node} {block : Block}

theorem classifyBlocks_eq_collect (lastHeight : ℕ) (answers : Block → Node) (blocks : List Block) :
    classifyBlocks (.ok lastHeight) answers blocks =
      collect (fun block => classifyBlock lastHeight (answers block) block) blocks := by
  induction blocks with
  | nil => rfl
  | cons block blocks ih =>
      rw [collect, ← ih, classifyBlocks, classifyBlocks, List.foldr_cons]
      cases classifyBlock lastHeight (answers block) block with
      | error e => rfl
      | ok found =>
          generalize (List.foldr _ (.ok []) blocks : Except Exception (List Block)) = rest
          cases rest with
          | error e => rfl
          | ok others => rfl

/-- What is returned comes from a row on its own. -/
theorem exists_of_mem_classifyBlocks {answers : Block → Node} {blocks results : List Block}
    (h : classifyBlocks (.ok lastHeight) answers blocks = .ok results) {result : Block}
    (hmem : result ∈ results) :
    ∃ block ∈ blocks, classifyBlock lastHeight (answers block) block = .ok (some result) := by
  rw [classifyBlocks_eq_collect] at h
  exact (mem_collect_iff h).mp hmem

theorem judgesRightly_of_error (h : node.header.error.isSome) :
    JudgesRightly lastHeight node block := by
  intro result hresult
  rw [classifyBlock, if_pos h] at hresult
  cases hresult

theorem judgesRightly_iff_of_orphaned (herror : ¬ node.header.error.isSome)
    (h : isOrphaned block node.header.response) :
    JudgesRightly lastHeight node block ↔ ¬ IsRecorded block node.header.response := by
  simp [JudgesRightly, classifyBlock, herror, h, Except.toOption]

theorem judgesRightly_iff_of_not_orphaned (hpending : block.status = .pending)
    (herror : ¬ node.header.error.isSome) (h : ¬ isOrphaned block node.header.response) :
    JudgesRightly lastHeight node block ↔
      (Settles lastHeight block.blockHeight node → IsRecorded block node.header.response) := by
  rw [Bool.not_eq_true] at herror h
  rw [JudgesRightly, Settles, classifyBlock]
  simp only [herror, h, Bool.false_eq_true, if_false]
  split
  · rename_i hdeep
    cases node.subsidy <;> simp [Except.toOption, hdeep]
  · rename_i hshallow
    simp [Except.toOption, hshallow, hpending]

section recorded

variable {poolNoncePrefix : Option (List Char)} {job : BeamJob} {context : BeamWorkerContext}
  {jobId nonce solution : List Char} {state state' : JobState} {share : MinedShare}
  {request : BeamSubmitRequest}

/-- When the fields of the header tell the block of a solution and a nonce. In the first mode the
proof of work has their digits as they were sent, if it has them at all. In the second a header
with the hash of the solution is not told from a header without one. -/
def ReadsBack (poolNoncePrefix : Option (List Char)) (job : BeamJob) (nonce solution : List Char)
    (lastHeight : ℕ) (node : Node) : Prop :=
  let pow := given (node.header.response.bind GetBlockHeaderResponse.pow)
  let blockHash := given (node.header.response.bind GetBlockHeaderResponse.blockHash)
  let hash := toHexString (job.sha256S (hexToByteArray solution))
  node.header.error.isSome ∨
    if Beam.isNullOrEmpty poolNoncePrefix then
      match pow with
      | some pow =>
          ignoringCase (solution ++ nonce) <:+: ignoringCase pow.toList →
            solution ++ nonce <:+: pow.toList
      | none => ¬ Settles lastHeight job.height node
    else
      blockHash ≠ some (String.ofList hash) ∧
        (Settles lastHeight job.height node →
          ∃ shown ∈ blockHash, ignoringCase shown.toList = ignoringCase hash)

theorem blockHeight_of_hashShare {solutionBytes nonceBytes : List UInt8}
    (h : job.hashShare context solutionBytes nonceBytes = .ok share) :
    share.blockHeight = job.height := by
  rw [BeamJob.hashShare] at h
  split at h
  · dsimp only at h
    split at h
    · cases h
    · cases h
      rfl
  · cases h

theorem given_ofList {s : List Char} (h : s ≠ []) :
    given (some (String.ofList s)) = some (String.ofList s) := by
  have hne : String.ofList s ≠ "" := fun heq => h (by simpa using congrArg String.toList heq)
  simp [given, hne]

/-- A row with a hash is judged by the proof of work. -/
theorem judgesRightly_of_hash {text : List Char} (htext : text ≠ [])
    (hhash : block.hash = some (String.ofList text)) (hpending : block.status = .pending)
    (herror : ¬ node.header.error.isSome) :
    JudgesRightly lastHeight node block ↔
      match given (node.header.response.bind GetBlockHeaderResponse.pow) with
      | some pow =>
          ignoringCase text <:+: ignoringCase pow.toList → text <:+: pow.toList
      | none => ¬ Settles lastHeight block.blockHeight node := by
  have hgiven : given block.hash = some (String.ofList text) := by rw [hhash, given_ofList htext]
  have hrecorded : IsRecorded block node.header.response ↔
      ∃ pow ∈ given (node.header.response.bind GetBlockHeaderResponse.pow),
        ignoringCase text <:+: ignoringCase pow.toList := by
    simp only [IsRecorded, hgiven, String.toList_ofList]
  cases hpow : given (node.header.response.bind GetBlockHeaderResponse.pow) with
  | none =>
      have horphaned : ¬ isOrphaned block node.header.response := by
        simp [isOrphaned, hgiven, hpow]
      rw [judgesRightly_iff_of_not_orphaned hpending herror horphaned, hrecorded, hpow]
      simp
  | some pow =>
      rw [hpow] at hrecorded
      simp only [Option.mem_some_iff, exists_eq_left'] at hrecorded
      by_cases hcontains : text <:+: pow.toList
      · have horphaned : ¬ isOrphaned block node.header.response := by
          simp [isOrphaned, hgiven, hpow, contains, hcontains]
        rw [judgesRightly_iff_of_not_orphaned hpending herror horphaned, hrecorded]
        exact iff_of_true (fun _ => hcontains.map Char.toLower) fun _ => hcontains
      · have horphaned : isOrphaned block node.header.response := by
          simp [isOrphaned, hgiven, hpow, contains, hcontains]
        rw [judgesRightly_iff_of_orphaned herror horphaned, hrecorded]
        exact ⟨fun hnot hfound => absurd hfound hnot, fun himp hfound => hcontains (himp hfound)⟩

/-- A row with confirmation data only is judged by the hash of the header. -/
theorem judgesRightly_of_transactionConfirmationData {text : List Char}
    (hhash : block.hash = none) (hdata : block.transactionConfirmationData = String.ofList text)
    (hpending : block.status = .pending) (herror : ¬ node.header.error.isSome) :
    JudgesRightly lastHeight node block ↔
      given (node.header.response.bind GetBlockHeaderResponse.blockHash) ≠
          some (String.ofList text) ∧
        (Settles lastHeight block.blockHeight node →
          ∃ blockHash ∈ given (node.header.response.bind GetBlockHeaderResponse.blockHash),
            ignoringCase blockHash.toList = ignoringCase text) := by
  have hgiven : given block.hash = none := by
    rw [hhash]
    rfl
  have hrecorded : IsRecorded block node.header.response ↔
      ∃ blockHash ∈ given (node.header.response.bind GetBlockHeaderResponse.blockHash),
        ignoringCase blockHash.toList = ignoringCase text := by
    simp only [IsRecorded, hgiven, hdata, String.toList_ofList]
  have horphaned : isOrphaned block node.header.response ↔
      given (node.header.response.bind GetBlockHeaderResponse.blockHash) =
        some (String.ofList text) := by
    rw [isOrphaned, hgiven]
    dsimp only
    split
    · rename_i blockHash hblockHash
      rw [hblockHash, hdata, decide_eq_true_iff, Option.some.injEq]
    · rename_i hblockHash
      simp [hblockHash]
  by_cases hsame : given (node.header.response.bind GetBlockHeaderResponse.blockHash) =
      some (String.ofList text)
  · -- The equal hash shows the block, and its row is orphaned.
    rw [judgesRightly_iff_of_orphaned herror (horphaned.mpr hsame), hrecorded, hsame]
    simp
  · rw [judgesRightly_iff_of_not_orphaned hpending herror (horphaned.not.mpr hsame), hrecorded]
    exact ⟨fun himp => ⟨hsame, himp⟩, fun h => h.2⟩

/-- A recorded block is judged rightly when the header's fields tell it. -/
theorem judgesRightly_recordedBlock_iff
    (h : submitShare poolNoncePrefix (some job) context jobId nonce solution state =
      (state', .ok (share, some request)))
    (id : ℕ) (poolId miner : String) (created : DateTime) (lastHeight : ℕ) (node : Node) :
    JudgesRightly lastHeight node (recordedBlock id poolId miner created share) ↔
      ReadsBack poolNoncePrefix job nonce solution lastHeight node := by
  obtain ⟨hnonce, mined, hshare, hcandidate, rfl⟩ := exists_hashShare_of_submitShare h
  have hheight := blockHeight_of_hashShare hshare
  have hblockHash := blockHash_of_hashShare hshare hcandidate
  by_cases herror : node.header.error.isSome
  · exact iff_of_true (judgesRightly_of_error herror) (Or.inl herror)
  · by_cases hmode : Beam.isNullOrEmpty poolNoncePrefix
    · have htext : solution ++ nonce ≠ [] := by
        rw [← List.length_pos_iff, List.length_append, hnonce, nonceSize]
        omega
      rw [judgesRightly_of_hash htext (by simp [recordedBlock, enrichShare, hcandidate, hmode])
        rfl herror]
      simp [ReadsBack, herror, hmode, recordedBlock, enrichShare, hcandidate, hheight]
    · have hdata : (recordedBlock id poolId miner created
          (enrichShare poolNoncePrefix nonce solution mined)).transactionConfirmationData =
            String.ofList (toHexString (job.sha256S (hexToByteArray solution))) := by
        simp [recordedBlock, enrichShare, hcandidate, hmode, hblockHash]
      rw [judgesRightly_of_transactionConfirmationData
        (by simp [recordedBlock, enrichShare, hcandidate, hmode]) hdata rfl herror]
      simp [ReadsBack, herror, hmode, recordedBlock, enrichShare, hcandidate, hheight]

end recorded

namespace LostBlock

/-- A job that takes every solution for a block. -/
def easyJob : BeamJob where
  height := 5
  difficulty := 1
  verify _ _ := true
  sha256S _ := [0xab]
  isBlockCandidate _ := true
  isLow _ _ := false

def nonce : List Char := List.replicate nonceSize '0'

def solution : List Char := List.replicate solutionSize '0'

def submit (poolNoncePrefix : Option (List Char)) :
    JobState × Except ℤ (MinedShare × Option BeamSubmitRequest) :=
  submitShare poolNoncePrefix (some easyJob) { difficulty := 1 } ['1'] nonce solution {}

/-- What the share of a submission has recorded. -/
def row (poolNoncePrefix : Option (List Char)) : Option Block :=
  (submit poolNoncePrefix).2.toOption.map fun result => recordedBlock 1 "beam" "miner" 0 result.1

/-- The row of a connection with a nonce prefix. -/
def prefixedRow : Block where
  id := 1
  poolId := "beam"
  blockHeight := 5
  transactionConfirmationData := "ab"
  miner := "miner"
  reward := 0
  created := 0

/-- The chain has a block of a hash at the height. -/
def shows (hash : String) : Node := ⟨{ response := some ⟨some hash, none⟩ }, .ok 4000000000⟩

end LostBlock

open LostBlock in
/-- Another block at the height confirms the row, and the block of the row orphans it. -/
theorem not_judgesRightly_lostBlock : row (some ['0', '1']) = some prefixedRow ∧
    ¬ JudgesRightly 1000 (shows "cd") prefixedRow ∧
      ¬ JudgesRightly 1000 (shows "ab") prefixedRow := by
  refine ⟨by decide +kernel, fun h => ?_, fun h => ?_⟩
  · obtain ⟨blockHash, hmem, hsame⟩ := (h { prefixedRow with
      status := .confirmed, confirmationProgress := 1, reward := 40 } (by decide +kernel)).1 rfl
    rw [← Option.mem_some.mp (Option.mem_filter_iff.mp hmem).1] at hsame
    exact absurd hsame (by decide +kernel)
  · exact (h { prefixedRow with
      status := .orphaned, confirmationProgress := 1, reward := 0 } (by decide +kernel)).2 rfl
      ⟨"ab", by decide +kernel, by decide +kernel⟩

open LostBlock in
theorem judgesRightly_foundBlock : ∃ share, JudgesRightly 1000
    ⟨{ response := some ⟨some "cd", some (String.ofList (solution ++ nonce ++ ['f']))⟩ },
      .ok 4000000000⟩ (recordedBlock 1 "beam" "miner" 0 share) := by
  have hsubmit : (submit none).2 = .ok ({
      blockHeight := 5
      networkDifficulty := some 1
      difficulty := 1
      isBlockCandidate := true
      blockHash := some (String.ofList (solution ++ nonce))
      transactionConfirmationData := some "5" }, some ⟨['1'], nonce, solution⟩) := by
    decide +kernel
  have htext : solution ++ nonce ++ ['f'] ≠ [] := by simp
  refine ⟨_, (judgesRightly_recordedBlock_iff (Prod.ext rfl hsubmit) 1 "beam" "miner" 0 1000
    _).mpr (Or.inr ?_)⟩
  have hmode : Beam.isNullOrEmpty none = true := rfl
  rw [if_pos hmode, Option.bind_some, given_ofList htext]
  intro _
  rw [String.toList_ofList]
  exact List.infix_append' [] _ _

end BeamPayoutHandler

end Miningcore
