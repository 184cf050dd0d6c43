import Miningcore.Blockchain.ScaledTargets

/-!
# Shares of a Cryptonote or Conceal job

The extranonce of a worker job and the bytes of a nonce are written into the blob of
the block template. What the blob converts to is hashed.

## Implementation notes

The native functions are functions of bytes, and the comparisons of doubles are
predicates of the hash. None is a blob that does not convert. An empty text stands
for null as well.
-/

namespace Miningcore.Cryptonote

open Foundation Bitcoin

structure BlockTemplate where
  blob : List Char
  difficulty : ℤ
  height : ℕ
  seedHash : List Char
  reservedOffset : ℕ
deriving DecidableEq

/-- The two families, with the hash function of the coin and the type of its blobs. The one of a
Cryptonote coin takes the seed hash and the height as well. -/
inductive Coin where
  | cryptonote (hashFunc : List Char → List UInt8 → ℕ → List UInt8) (blobType : ℕ)
  | conceal (hashFunc : List UInt8 → ℕ → List UInt8) (blobType : ℕ)

/-- What the jobs of a pool have in common. -/
structure CryptonotePool where
  coin : Coin
  instanceId : List UInt8
  convertBlob : List UInt8 → Option (List UInt8)
  getBlockId : List UInt8 → List UInt8
  cryptonightHashFast : List UInt8 → List UInt8
  /-- Whether the share-diff of a hash meets the difficulty of the block. -/
  isBlockCandidate : List UInt8 → ℤ → Bool
  /-- Whether the share-diff of a hash is below 0.99 of a difficulty. -/
  isLow : List UInt8 → ℚ → Bool
  /-- The text of the share-diff of a hash. -/
  shareDiff : List UInt8 → String

structure CryptonoteJob where
  blockTemplate : BlockTemplate
  blobTemplate : List UInt8
  prevHash : List Char

abbrev ConcealJob := CryptonoteJob

def extraNonceSize : ℕ := 4

def blobNonceOffset : ℕ := 39

def zephyrBlobType : ℕ := 13

def scalaBlobType : ℕ := 14

def diff1 : ℕ := 2 ^ 256 - 1

/-- `CopyTo` of some bytes into others from an offset, where they have to fit. -/
def copyTo (bytes blob : List UInt8) (offset : ℕ) : Option (List UInt8) :=
  if offset + bytes.length ≤ blob.length then
    some (blob.take offset ++ bytes ++ blob.drop (offset + bytes.length))
  else none

/-- The four bytes of an extranonce, the highest first. -/
def bigEndian (extraNonce : ℕ) : List UInt8 := (littleEndian 4 extraNonce).reverse

/-- The start of the target of a difficulty. There is none for a difficulty that comes to zero. -/
def encodeTarget (difficulty : ℚ) : Option (List Char) :=
  let diff := scaledDifficulty longMax difficulty
  if diff = 0 then none
  else
    let quotient := diff1 / diff * 255
    let padded := padTarget (signedBytes quotient).reverse
    some (toHexString (padded.take 4).reverse)

/-- The hash of the blob behind its length. -/
def computeBlockHash (pool : CryptonotePool) (blobConverted : List UInt8) : List UInt8 :=
  pool.cryptonightHashFast (blobConverted.length.toUInt8 :: blobConverted)

namespace CryptonoteJob

/-- The job of a template, which has space for the instance id. -/
def init (pool : CryptonotePool) (blockTemplate : BlockTemplate) (prevHash : List Char) :
    Option CryptonoteJob :=
  (copyTo pool.instanceId (hexToByteArray blockTemplate.blob)
      (blockTemplate.reservedOffset + extraNonceSize)).map fun blobTemplate =>
    { blockTemplate, blobTemplate, prevHash }

variable (pool : CryptonotePool) (job : CryptonoteJob)

/-- The blob with an extranonce. -/
def workerBlob (workerExtraNonce : ℕ) : Option (List UInt8) :=
  copyTo (bigEndian workerExtraNonce) job.blobTemplate job.blockTemplate.reservedOffset

def encodeBlob (workerExtraNonce : ℕ) : Option (List Char) :=
  ((job.workerBlob workerExtraNonce).bind pool.convertBlob).map toHexString

/-- The share of a blob that has been hashed. -/
def hashShare (context : WorkerDifficulty) (headerHash blockHash blob : List UInt8) :
    Except SubmitException (MinedShare × List Char) :=
  let isBlockCandidate := pool.isBlockCandidate headerHash job.blockTemplate.difficulty
  match stratumDifficulty context isBlockCandidate (pool.isLow headerHash) with
  | none => .error (.stratum .lowDifficultyShare
      ("low difficulty share (" ++ pool.shareDiff headerHash ++ ")"))
  | some difficulty => .ok
      ({ blockHeight := job.blockTemplate.height
         difficulty
         isBlockCandidate
         blockHash := if isBlockCandidate then some (String.ofList (toHexString blockHash))
           else none }, toHexString blob)

/-- The share of a nonce with its blob, given how blobs are hashed and what is said of a hash that
is not the worker's. -/
def processShareWith (hash : List UInt8 → List UInt8)
    (badHash : List Char → List Char → String) (blockHash : List UInt8 → List UInt8 → List UInt8)
    (context : WorkerDifficulty) (nonce : List Char) (workerExtraNonce : ℕ)
    (workerHash : List Char) : Except SubmitException (MinedShare × List Char) :=
  if nonce = [] ∨ workerHash = [] ∨ workerExtraNonce = 0 then .error .argument
  else if !matchesDigits 8 nonce then .error (.stratum .minusOne "malformed nonce")
  else
    match (job.workerBlob workerExtraNonce).bind fun blob =>
        copyTo (hexToByteArray nonce) blob blobNonceOffset with
    | none => .error .argument
    | some blob =>
        match pool.convertBlob blob with
        | none => .error (.stratum .minusOne "malformed blob")
        | some blobConverted =>
            let headerHash := hash blobConverted
            if toHexString headerHash ≠ workerHash then
              .error (.stratum .minusOne (badHash (toHexString headerHash) workerHash))
            else job.hashShare pool context headerHash (blockHash blob blobConverted) blob

def processShare (hashFunc : List Char → List UInt8 → ℕ → List UInt8) (blobType : ℕ) :
    WorkerDifficulty → List Char → ℕ → List Char →
      Except SubmitException (MinedShare × List Char) :=
  job.processShareWith pool
    (fun blobConverted =>
      hashFunc job.blockTemplate.seedHash blobConverted job.blockTemplate.height)
    (fun headerHashString workerHash =>
      "bad hash [generated: " ++ String.ofList headerHashString ++ ", received: " ++
        String.ofList workerHash ++ "]")
    (fun blob blobConverted =>
      if blobType = zephyrBlobType ∨ blobType = scalaBlobType then pool.getBlockId blob
      else computeBlockHash pool blobConverted)

end CryptonoteJob

def ConcealJob.processShare (pool : CryptonotePool) (job : ConcealJob)
    (hashFunc : List UInt8 → ℕ → List UInt8) :
    WorkerDifficulty → List Char → ℕ → List Char →
      Except SubmitException (MinedShare × List Char) :=
  job.processShareWith pool
    (fun blobConverted => hashFunc blobConverted job.blockTemplate.height)
    (fun _ _ => "bad hash")
    (fun _ blobConverted => computeBlockHash pool blobConverted)

/-- The share of a job of the pool's family. -/
def CryptonotePool.processShare (pool : CryptonotePool) (job : CryptonoteJob) :
    WorkerDifficulty → List Char → ℕ → List Char →
      Except SubmitException (MinedShare × List Char) :=
  match pool.coin with
  | .cryptonote hashFunc blobType => job.processShare pool hashFunc blobType
  | .conceal hashFunc _ => ConcealJob.processShare pool job hashFunc

section nonces

variable {pool : CryptonotePool} {job : CryptonoteJob} {context : WorkerDifficulty}
  {nonce workerHash : List Char} {workerExtraNonce : ℕ}

/-- Both families process a share alike but for three functions. -/
theorem CryptonotePool.exists_processShare_eq (pool : CryptonotePool) (job : CryptonoteJob) :
    ∃ hash badHash blockHash,
      pool.processShare job = job.processShareWith pool hash badHash blockHash := by
  rw [processShare]
  cases pool.coin with
  | cryptonote hashFunc blobType => exact ⟨_, _, _, rfl⟩
  | conceal hashFunc blobType => exact ⟨_, _, _, rfl⟩

/-- A share has a nonce that the regular expression matches. -/
theorem CryptonotePool.matchesDigits_of_processShare {result : MinedShare × List Char}
    (h : pool.processShare job context nonce workerExtraNonce workerHash = .ok result) :
    matchesDigits 8 nonce := by
  obtain ⟨hash, badHash, blockHash, hprocess⟩ := pool.exists_processShare_eq job
  rw [hprocess, CryptonoteJob.processShareWith] at h
  split at h
  · cases h
  · split at h
    · cases h
    · rename_i hmatches
      simpa using hmatches

/-- A line feed behind a nonce changes nothing. -/
theorem CryptonotePool.processShare_lineFeed (h : matchesDigits 8 nonce)
    (hend : nonce.getLast? ≠ some '\n') :
    pool.processShare job context (nonce ++ ['\n']) workerExtraNonce workerHash =
      pool.processShare job context nonce workerExtraNonce workerHash := by
  obtain ⟨hash, badHash, blockHash, hprocess⟩ := pool.exists_processShare_eq job
  obtain ⟨hlength, hlower⟩ := of_matchesDigits h hend
  have hempty : nonce ≠ [] := by
    rw [← List.length_pos_iff, hlength]
    decide
  have hmatches : matchesDigits 8 (nonce ++ ['\n']) :=
    matchesDigits_iff.mpr ⟨nonce, hlength, hlower, Or.inr rfl⟩
  have hbytes : hexToByteArray (nonce ++ ['\n']) = hexToByteArray nonce :=
    hexToByteArray_lineFeed (fun c hc => isHexDigit_of_isLowerHexDigit (hlower c hc)) (by
      rw [hlength]
      decide)
  rw [hprocess, CryptonoteJob.processShareWith, CryptonoteJob.processShareWith, hbytes, h, hmatches]
  simp [hempty]

end nonces

end Miningcore.Cryptonote
