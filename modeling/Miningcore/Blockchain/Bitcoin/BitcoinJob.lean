import Miningcore.Crypto.MerkleTree
import Miningcore.Stratum.Submission

/-!
# Shares of a Bitcoin job

A submission is checked and registered by its texts. The coinbase is built from
the bytes of the extranonces and the header from the numbers of the other texts.

## Implementation notes

The hashers are functions of bytes. The registry holds its keys without their
case. A share of a block candidate comes with the block. `BlockHeader` and the
variable integers are of the NBitcoin library: the six fields of a header and the
counts stand here in the layout that it documents.
-/

namespace Miningcore.Bitcoin

open Foundation

/-- An unsigned number in `width` bytes, the lowest first. -/
def littleEndian : Nat → Nat → Bytes
  | 0, _ => []
  | width + 1, n => n.toUInt8 :: littleEndian width (n / 256)

theorem length_littleEndian (width n : Nat) : (littleEndian width n).length = width := by
  induction width generalizing n with
  | zero => rfl
  | succ width ih => rw [littleEndian, List.length_cons, ih]

theorem littleEndian_inj {width n m : Nat} (hn : n < 256 ^ width) (hm : m < 256 ^ width)
    (h : littleEndian width n = littleEndian width m) : n = m := by
  induction width generalizing n m with
  | zero =>
      rw [Nat.pow_zero] at hn hm
      omega
  | succ width ih =>
      rw [pow_succ] at hn hm
      rw [littleEndian, littleEndian, List.cons.injEq] at h
      have hquotient := ih (by omega) (by omega) h.2
      have hbyte := congrArg UInt8.toNat h.1
      rw [Nat.toUInt8_eq, Nat.toUInt8_eq, UInt8.toNat_ofNat', UInt8.toNat_ofNat'] at hbyte
      omega

/-- The digits of a number in two for every byte. -/
theorem toHexString_littleEndian (width n : ℕ) :
    toHexString (littleEndian width n).reverse = hexText (2 * width) n := by
  induction width generalizing n with
  | zero =>
      rw [littleEndian, Nat.mul_zero, hexText]
      rfl
  | succ width ih =>
      have hbyte : toHexString [n.toUInt8] = [hexChar (n / 16 % 16), hexChar (n % 16)] := by
        have hvalue : n.toUInt8.toNat = n % 256 := by
          rw [Nat.toUInt8_eq, UInt8.toNat_ofNat']
        rw [toHexString, List.flatMap_singleton, hvalue, hexText, hexText, hexText,
          List.nil_append, List.singleton_append]
        congr 2
        · omega
        · congr 1
          omega
      rw [littleEndian, List.reverse_cons, toHexString_append, ih, hbyte,
        show 2 * (width + 1) = 2 * width + 1 + 1 by omega, hexText, hexText, List.append_assoc,
        List.singleton_append, Nat.div_div_eq_div_mul]

structure BitcoinWorkerContext extends WorkerDifficulty where
  extraNonce1 : List Char
  versionRollingMask : Option UInt32 := none

structure BitcoinJob where
  height : Nat
  version : UInt32
  curTime : Nat
  previousBlockhash : Bytes
  bits : Bytes
  coinbaseInitial : Bytes
  coinbaseFinal : Bytes
  merkleSteps : List Bytes
  transactions : List Bytes
  isPoS : Bool := false
  mweb : Option Bytes := none
  networkDifficulty : ℚ
  shareMultiplier : ℚ
  blockTargetValue : Nat
  coinbaseHasher : Bytes → Bytes
  doubleDigest : Bytes → Bytes
  /-- The hash of a header with its time, as a number. -/
  headerHasher : Bytes → Nat → Nat
  blockHasher : Bytes → Nat → String
  /-- Whether the share-diff of a hash is below 0.99 of a difficulty. -/
  isLow : Nat → ℚ → Bool
  /-- The text of the share-diff of a hash. -/
  shareDiff : Nat → String

structure JobState where
  submissions : List (List Char) := []
deriving DecidableEq

/-- The texts of a submission and the time of the clock. -/
structure Submission where
  context : BitcoinWorkerContext
  extraNonce2 : List Char
  nTime : List Char
  nonce : List Char
  versionBits : Option (List Char) := none
  now : Nat

def registerSubmit (extraNonce1 extraNonce2 nTime nonce : List Char) (state : JobState) :
    Option JobState :=
  let key := extraNonce1 ++ extraNonce2 ++ nTime ++ nonce
  if ignoringCase key ∈ state.submissions then none
  else some { submissions := ignoringCase key :: state.submissions }

namespace BitcoinJob

variable (job : BitcoinJob)

def serializeCoinbase (extraNonce1 extraNonce2 : List Char) : Bytes :=
  job.coinbaseInitial ++ hexToByteArray extraNonce1 ++ hexToByteArray extraNonce2 ++
    job.coinbaseFinal

/-- The version with the bits of the miner under the mask. -/
def rolledVersion (versionMask versionBits : Option UInt32) : UInt32 :=
  match versionMask, versionBits with
  | some mask, some bits => (job.version &&& ~~~mask) ||| (bits &&& mask)
  | _, _ => job.version

def serializeHeader (coinbaseHash : Bytes) (nTime nonce : Nat)
    (versionMask versionBits : Option UInt32) : Bytes :=
  let merkleRoot := MerkleTree.withFirst job.doubleDigest job.merkleSteps coinbaseHash
  littleEndian 4 (job.rolledVersion versionMask versionBits).toNat ++ job.previousBlockhash ++
    merkleRoot ++ littleEndian 4 nTime ++ job.bits ++ littleEndian 4 nonce

def varInt (n : Nat) : Bytes :=
  if n < 0xfd then littleEndian 1 n
  else if n ≤ 0xffff then 0xfd :: littleEndian 2 n
  else if n ≤ 0xffffffff then 0xfe :: littleEndian 4 n
  else 0xff :: littleEndian 8 n

def serializeBlock (header coinbase : Bytes) : Bytes :=
  header ++ varInt (job.transactions.length + 1) ++ coinbase ++ job.transactions.flatten ++
    (if job.isPoS then [0] else []) ++
    match job.mweb with
    | none => []
    | some mweb => 1 :: mweb

def processShareInternal (context : BitcoinWorkerContext) (extraNonce2 : List Char)
    (nTime nonce : Nat) (versionBits : Option UInt32) :
    Except SubmitException (MinedShare × Option (List Char)) :=
  let coinbase := job.serializeCoinbase context.extraNonce1 extraNonce2
  let header := job.serializeHeader (job.coinbaseHasher coinbase) nTime nonce
    context.versionRollingMask versionBits
  let headerValue := job.headerHasher header nTime
  -- no share-diff is a quotient by a hash of zero
  if headerValue = 0 then .error .divideByZero
  else
    let isBlockCandidate := decide (headerValue ≤ job.blockTargetValue)
    match stratumDifficulty context.toWorkerDifficulty isBlockCandidate (job.isLow headerValue) with
    | none =>
        .error (.stratum .lowDifficultyShare s!"low difficulty share ({job.shareDiff headerValue})")
    | some difficulty =>
        let share : MinedShare :=
          { blockHeight := job.height
            networkDifficulty := some job.networkDifficulty
            difficulty := difficulty / job.shareMultiplier
            isBlockCandidate
            blockHash := if isBlockCandidate then some (job.blockHasher header nTime) else none }
        .ok (share, if isBlockCandidate then
          some (toHexString (job.serializeBlock header coinbase)) else none)

/-- The numbers of a submission that passes the checks before it is registered. -/
structure Numbers where
  nTime : Nat
  nonce : Nat
  versionBits : UInt32
deriving DecidableEq

/-- The version bits, which may only touch what the mask covers. -/
def parseVersionBits (mask : Option UInt32) (versionBits : Option (List Char)) :
    Except SubmitException UInt32 :=
  match mask, versionBits with
  | some mask, some text =>
      match parseHexNumber 32 text with
      | .error exception => .error (.parse exception)
      | .ok bits =>
          if UInt32.ofNat bits &&& ~~~mask ≠ 0 then
            .error (.stratum .other "rolling-version mask violation")
          else .ok (UInt32.ofNat bits)
  | _, _ => .ok 0

def checkSubmission (submission : Submission) : Except SubmitException Numbers :=
  if submission.extraNonce2 = [] ∨ submission.nTime = [] ∨ submission.nonce = [] then
    .error .argument
  else if submission.nTime.length ≠ 8 then
    .error (.stratum .other "incorrect size of ntime")
  else
    match parseHexNumber 32 submission.nTime with
    | .error exception => .error (.parse exception)
    | .ok nTime =>
        if nTime < job.curTime ∨ submission.now + 7200 < nTime then
          .error (.stratum .other "ntime out of range")
        else if submission.nonce.length ≠ 8 then
          .error (.stratum .other "incorrect size of nonce")
        else
          match parseHexNumber 32 submission.nonce with
          | .error exception => .error (.parse exception)
          | .ok nonce =>
              match parseVersionBits submission.context.versionRollingMask
                  submission.versionBits with
              | .error exception => .error exception
              | .ok versionBits => .ok ⟨nTime, nonce, versionBits⟩

def processShare (submission : Submission) (state : JobState) :
    JobState × Except SubmitException (MinedShare × Option (List Char)) :=
  match job.checkSubmission submission with
  | .error exception => (state, .error exception)
  | .ok numbers =>
      match registerSubmit submission.context.extraNonce1 submission.extraNonce2
          submission.nTime submission.nonce state with
      | none => (state, .error (.stratum .duplicateShare "duplicate share"))
      | some state =>
          (state, job.processShareInternal submission.context submission.extraNonce2
            numbers.nTime numbers.nonce (some numbers.versionBits))

end BitcoinJob

end Miningcore.Bitcoin
