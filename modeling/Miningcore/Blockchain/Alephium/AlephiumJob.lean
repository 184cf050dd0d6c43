import Miningcore.Foundation.Registry
import Miningcore.Stratum.Submission

/-!
# Shares of an Alephium job

The bytes of a nonce are hashed in front of the header. The hash has to be one of the
chain of the job, and the nonce's text is registered before its bytes are looked at.

## Implementation notes

Whether a hash meets a target is a predicate of it. The registry holds its texts
without their case.
-/

namespace Miningcore.Alephium

open Foundation

inductive AlephiumStratumError where
  | jobNotFound
  | invalidJobChainIndex
  | invalidWorker
  | invalidNonce
  | duplicatedShare
  | lowDifficultyShare
  | invalidBlockChainIndex
  | minusOne
deriving DecidableEq

inductive AlephiumException where
  | argument
  | stratum (code : AlephiumStratumError) (message : String)
deriving DecidableEq

structure AlephiumJob where
  height : ℕ
  difficulty : ℚ
  fromGroup : ℕ
  toGroup : ℕ
  headerBlob : List Char
  /-- The digest of the hasher. -/
  digest : List UInt8 → List UInt8
  /-- Whether a hash is at most the target of the block. -/
  isBlockCandidate : List UInt8 → Bool
  /-- Whether the share-diff of a hash is below 0.99 of a difficulty. -/
  isLow : List UInt8 → ℚ → Bool
  /-- The text of the share-diff of a hash. -/
  shareDiff : List UInt8 → String

def nonceLength : ℕ := 24

def groupSize : ℕ := 4

def shareMultiplier : ℚ := 1

/-- The groups of the last two bytes of a hash. -/
def blockChainIndex (hashBytes : List UInt8) : ℕ × ℕ :=
  let beforeLast := (hashBytes.getD (hashBytes.length - 2) 0).toNat
  let last := (hashBytes.getD (hashBytes.length - 1) 0).toNat
  let index := (beforeLast * 256 + last) % (groupSize * groupSize)
  (index / groupSize, index % groupSize)

def duplicateShare : AlephiumException := .stratum .duplicatedShare "duplicate share"

structure Submission where
  context : WorkerDifficulty
  nonce : List Char

/-- What is registered. -/
def Submission.key (submission : Submission) : Option (List Char) :=
  if submission.nonce = [] then none else some (ignoringCase submission.nonce)

namespace AlephiumJob

variable (job : AlephiumJob)

/-- What is hashed. -/
def headerNonceBytes (nonceBytes : List UInt8) : List UInt8 :=
  nonceBytes ++ hexToByteArray job.headerBlob

/-- The share of a hash. -/
def hashShare (context : WorkerDifficulty) (hashBytes : List UInt8) :
    Except AlephiumException MinedShare :=
  let (fromGroup, toGroup) := blockChainIndex hashBytes
  if fromGroup ≠ job.fromGroup ∨ toGroup ≠ job.toGroup then
    .error (.stratum .invalidBlockChainIndex
      ("invalid block chain index, expected: ['fromGroup': " ++ toString job.fromGroup ++
        ", 'toGroup': " ++ toString job.toGroup ++ "], received['fromGroup': " ++
        toString fromGroup ++ ", 'toGroup': " ++ toString toGroup ++ "]"))
  else
    let isBlockCandidate := job.isBlockCandidate hashBytes
    match stratumDifficulty context isBlockCandidate (job.isLow hashBytes) with
    | none => .error (.stratum .lowDifficultyShare
        ("low difficulty share (" ++ job.shareDiff hashBytes ++ ")"))
    | some difficulty => .ok {
        blockHeight := job.height
        networkDifficulty := some job.difficulty
        difficulty := difficulty / shareMultiplier
        isBlockCandidate
        blockHash :=
          if isBlockCandidate then some (String.ofList (toHexString hashBytes)) else none }

def processShareInternal (context : WorkerDifficulty) (nonce : List Char) :
    Except AlephiumException MinedShare :=
  let nonceBytes := hexToByteArray nonce
  if nonceBytes.length ≠ nonceLength then
    .error (.stratum .invalidNonce "incorrect size of nonce")
  else job.hashShare context (job.digest (job.digest (job.headerNonceBytes nonceBytes)))

/-- The share of a submission with the texts registered after it. -/
def processShare (submission : Submission) (submissions : List (List Char)) :
    List (List Char) × Except AlephiumException MinedShare :=
  if submission.nonce = [] then (submissions, .error .argument)
  else if ignoringCase submission.nonce ∈ submissions then (submissions, .error duplicateShare)
  else
    (ignoringCase submission.nonce :: submissions,
      job.processShareInternal submission.context submission.nonce)

/-- The bytes that are hashed for a submission that is registered. -/
def hashedBytes (submission : Submission) : Option (List UInt8) :=
  submission.key.map fun _ => job.headerNonceBytes (hexToByteArray submission.nonce)

/-- The outcome of a submission when it is no duplicate. -/
def share (submission : Submission) : Except AlephiumException MinedShare :=
  if submission.nonce = [] then .error .argument
  else job.processShareInternal submission.context submission.nonce

theorem share_ne_duplicate (submission : Submission) :
    job.share submission ≠ .error duplicateShare := by
  rw [share]
  split
  · rintro ⟨⟩
  · dsimp only [processShareInternal]
    split
    · rintro ⟨⟩
    · dsimp only [hashShare]
      split
      · rintro ⟨⟩
      · split
        · rintro ⟨⟩
        · rintro ⟨⟩

theorem registersOnce : RegistersOnce Submission.key job.hashedBytes job.share duplicateShare
    job.processShare where
  refused {submission} h registered := by
    rw [Submission.key] at h
    split at h
    · rename_i hempty
      rw [processShare, share, if_pos hempty, if_pos hempty]
    · cases h
  again {submission k} h registered hmem := by
    rw [Submission.key] at h
    split at h
    · cases h
    · rename_i hempty
      cases h
      rw [processShare, if_neg hempty, if_pos hmem]
  first {submission k} h registered hnew := by
    rw [Submission.key] at h
    split at h
    · cases h
    · rename_i hempty
      cases h
      rw [processShare, share, if_neg hempty, if_neg hnew, if_neg hempty]
  share_ne := job.share_ne_duplicate
  isSome_work submission := Option.isSome_map

/-- Nonces of pairs of digits are registered as what they are hashed to. -/
theorem key_eq_iff {first second : Submission} (hfirst : IsHexPairs first.nonce)
    (hsecond : IsHexPairs second.nonce) (hkey : first.key.isSome) (hkey' : second.key.isSome) :
    first.key = second.key ↔ job.hashedBytes first = job.hashedBytes second := by
  have hregistered {submission : Submission} (h : submission.key.isSome) :
      submission.key = some (ignoringCase submission.nonce) := by
    rw [Submission.key] at h ⊢
    split
    · rename_i hempty
      rw [if_pos hempty] at h
      cases h
    · rfl
  rw [hashedBytes, hashedBytes, hregistered hkey, hregistered hkey', Option.map_some,
    Option.map_some, Option.some.injEq, Option.some.injEq, headerNonceBytes, headerNonceBytes,
    List.append_left_inj, hexToByteArray_eq_iff hfirst hsecond]

end AlephiumJob

end Miningcore.Alephium
