import Miningcore.Blockchain.ExtraNonceProviderBase
import Miningcore.Foundation.Registry
import Miningcore.Stratum.Submission

/-!
# Shares of a Xelis job

The bytes of a nonce and of the worker's extranonce are hashed together with parts of
the block template. The texts of both are registered, the extranonce first.

## Implementation notes

The hash of the algorithm that the template names is a function of bytes, and whether
it meets a target is a predicate of it. The registry holds its texts without their
case. Requests are those of subscribed workers, whose extranonces come from the
provider.
-/

namespace Miningcore.Xelis

open Foundation Blockchain

structure XelisWorkerContext extends WorkerDifficulty where
  extraNonce1 : List Char
  isHexPairs_extraNonce1 : IsHexPairs extraNonce1

/-- `GetSubscriberData`, which assigns the extranonce of a worker. It has a size. -/
def getSubscriberData {extranonceBytes : ℕ} (hbytes : 0 < extranonceBytes)
    (provider : ExtraNonceProvider extranonceBytes) (context : XelisWorkerContext) :
    XelisWorkerContext × ExtraNonceProvider extranonceBytes :=
  ({ context with
      extraNonce1 := provider.next.1
      isHexPairs_extraNonce1 := provider.isHexPairs_next hbytes }, provider.next.2)

structure XelisJob where
  topoHeight : ℕ
  difficulty : ℚ
  prevHashBytes : List UInt8
  versionBytes : List UInt8
  heightBytes : List UInt8
  nTimeBytes : List UInt8
  tipsCountBytes : List UInt8
  tipsBytes : Option (List UInt8)
  transactionsCountBytes : List UInt8
  transactionsBytes : Option (List UInt8)
  minerPublicKeyBytes : List UInt8
  /-- The hash of the algorithm of the template. -/
  xelisHash : List UInt8 → List UInt8
  blake3Hash : List UInt8 → List UInt8
  /-- Whether a hash is at most the target of the block. -/
  isBlockCandidate : List UInt8 → Bool
  /-- Whether the share-diff of a hash is below 0.99 of a difficulty. -/
  isLow : List UInt8 → ℚ → Bool
  /-- The text of the share-diff of a hash. -/
  shareDiff : List UInt8 → String

def nonceLength : ℕ := 16

def duplicateShare : SubmitException := .stratum .duplicateShare "duplicate"

structure Submission where
  context : XelisWorkerContext
  nonce : List Char

/-- What is registered. -/
def Submission.key (submission : Submission) : Option (List Char) :=
  if submission.nonce.length = nonceLength then
    some (ignoringCase (submission.context.extraNonce1 ++ submission.nonce))
  else none

namespace XelisJob

variable (job : XelisJob)

/-- What is hashed. -/
def serializeCoinbase (extranonceBytes nonceBytes : List UInt8) : List UInt8 :=
  job.prevHashBytes ++ job.nTimeBytes ++ nonceBytes ++ extranonceBytes ++ job.minerPublicKeyBytes

def serializeHeader (extranonceBytes nonceBytes : List UInt8) : List UInt8 :=
  job.versionBytes ++ job.heightBytes ++ job.nTimeBytes ++ nonceBytes ++ extranonceBytes ++
    job.tipsCountBytes ++ job.tipsBytes.getD [] ++ job.transactionsCountBytes ++
    job.transactionsBytes.getD [] ++ job.minerPublicKeyBytes

/-- The share of a nonce, with the header that is sent for a candidate. -/
def processShareInternal (context : XelisWorkerContext) (nonce : List Char) :
    Except SubmitException (MinedShare × Option (List Char)) :=
  let extranonceBytes := hexToByteArray context.extraNonce1
  let nonceBytes := hexToByteArray nonce
  let coinbaseBytes := job.serializeCoinbase extranonceBytes nonceBytes
  let hashCoinbaseBytes := job.xelisHash coinbaseBytes
  let isBlockCandidate := job.isBlockCandidate hashCoinbaseBytes
  match stratumDifficulty context.toWorkerDifficulty isBlockCandidate
      (job.isLow hashCoinbaseBytes) with
  | none => .error (.stratum .lowDifficultyShare
      ("low difficulty share [" ++ job.shareDiff hashCoinbaseBytes ++ "]"))
  | some difficulty => .ok
      ({ blockHeight := job.topoHeight
         networkDifficulty := some job.difficulty
         difficulty
         isBlockCandidate
         blockHash := if isBlockCandidate then
           some (String.ofList (toHexString (job.blake3Hash coinbaseBytes))) else none },
        if isBlockCandidate then
          some (toHexString (job.serializeHeader extranonceBytes nonceBytes)) else none)

/-- The outcome of a submission that is refused before it is registered, or when it is no
duplicate. -/
def share (submission : Submission) : Except SubmitException (MinedShare × Option (List Char)) :=
  if submission.nonce = [] then .error .argument
  else if submission.nonce.length ≠ nonceLength then
    .error (.stratum .other "incorrect size of nonce")
  else job.processShareInternal submission.context submission.nonce

/-- The share of a submission with the texts registered after it. -/
def processShare (submission : Submission) (submissions : List (List Char)) :
    List (List Char) × Except SubmitException (MinedShare × Option (List Char)) :=
  let key := ignoringCase (submission.context.extraNonce1 ++ submission.nonce)
  if submission.nonce = [] then (submissions, .error .argument)
  else if submission.nonce.length ≠ nonceLength then
    (submissions, .error (.stratum .other "incorrect size of nonce"))
  else if key ∈ submissions then (submissions, .error duplicateShare)
  else (key :: submissions, job.processShareInternal submission.context submission.nonce)

/-- The bytes that are hashed for a submission that is registered. -/
def hashedBytes (submission : Submission) : Option (List UInt8) :=
  submission.key.map fun _ =>
    job.serializeCoinbase (hexToByteArray submission.context.extraNonce1)
      (hexToByteArray submission.nonce)

theorem share_ne_duplicate (submission : Submission) :
    job.share submission ≠ .error duplicateShare := by
  rw [share]
  split
  · rintro ⟨⟩
  · split
    · rintro ⟨⟩
    · dsimp only [processShareInternal]
      split
      · rintro ⟨⟩
      · rintro ⟨⟩

theorem ne_nil_of_length {nonce : List Char} (h : nonce.length = nonceLength) : nonce ≠ [] := by
  rw [← List.length_pos_iff, h]
  decide

theorem registersOnce : RegistersOnce Submission.key job.hashedBytes job.share duplicateShare
    job.processShare where
  refused {submission} h registered := by
    rw [Submission.key] at h
    split at h
    · cases h
    · rename_i hlength
      rw [processShare, share]
      split
      · rfl
      · rfl
  again {submission k} h registered hmem := by
    rw [Submission.key] at h
    split at h
    · rename_i hlength
      cases h
      simp only [processShare, if_neg (ne_nil_of_length hlength), if_neg (not_not.mpr hlength),
        if_pos hmem]
    · cases h
  first {submission k} h registered hnew := by
    rw [Submission.key] at h
    split at h
    · rename_i hlength
      cases h
      simp only [processShare, share, if_neg (ne_nil_of_length hlength),
        if_neg (not_not.mpr hlength), if_neg hnew]
    · cases h
  share_ne := job.share_ne_duplicate
  isSome_work submission := Option.isSome_map

/-- Nonces of digits are registered as what they are hashed to. -/
theorem key_eq_iff {first second : Submission} (hfirst : ∀ c ∈ first.nonce, isHexDigit c)
    (hsecond : ∀ c ∈ second.nonce, isHexDigit c) (hkey : first.key.isSome)
    (hkey' : second.key.isSome) :
    first.key = second.key ↔ job.hashedBytes first = job.hashedBytes second := by
  have hlength {submission : Submission} (h : submission.key.isSome) :
      submission.nonce.length = nonceLength := by
    rw [Submission.key] at h
    split at h
    · assumption
    · cases h
  have hpairs : IsHexPairs first.nonce := ⟨by rw [hlength hkey]; decide, hfirst⟩
  have hpairs' : IsHexPairs second.nonce := ⟨by rw [hlength hkey']; decide, hsecond⟩
  have hbytes : (hexToByteArray first.nonce).length = (hexToByteArray second.nonce).length := by
    rw [hexToByteArray_of_isHexDigit hfirst, hexToByteArray_of_isHexDigit hsecond,
      length_pairBytes, length_pairBytes, hlength hkey, hlength hkey']
  have hextra := first.context.isHexPairs_extraNonce1
  have hextra' := second.context.isHexPairs_extraNonce1
  simp only [hashedBytes, Submission.key, if_pos (hlength hkey), if_pos (hlength hkey'),
    Option.map_some, Option.some.injEq, serializeCoinbase, List.append_assoc]
  rw [List.append_right_inj, List.append_right_inj]
  constructor
  · intro hsame
    rw [ignoringCase_append, ignoringCase_append] at hsame
    obtain ⟨hextranonce, hnonce⟩ := List.append_inj' hsame
      (by rw [length_ignoringCase, length_ignoringCase, hlength hkey, hlength hkey'])
    rw [(hexToByteArray_eq_iff hextra hextra').mpr hextranonce,
      (hexToByteArray_eq_iff hpairs hpairs').mpr hnonce]
  · intro hsame
    obtain ⟨hnonce, hrest⟩ := List.append_inj hsame hbytes
    rw [List.append_left_inj] at hrest
    rw [ignoringCase_append, ignoringCase_append,
      (hexToByteArray_eq_iff hextra hextra').mp hrest,
      (hexToByteArray_eq_iff hpairs hpairs').mp hnonce]

end XelisJob

end Miningcore.Xelis
