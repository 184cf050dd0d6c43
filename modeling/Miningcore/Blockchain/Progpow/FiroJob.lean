import Mathlib.Data.Nat.Log
import Miningcore.Blockchain.Bitcoin.BitcoinJobManager
import Miningcore.Blockchain.Progpow.ProgpowJob

/-!
# The announced hash of Firo and Kiiro blocks

The hash that a block is announced under is computed from the header, the text of the
nonce and the text of the mix hash. The block has the nonce in eight bytes, whose
text is only as long if the nonce has sixteen digits.
-/

namespace Miningcore.Progpow

open Foundation Bitcoin

/-- `ToString("X")`, which has no leading zeros. -/
def toStringX (n : ℕ) : List Char := (hexText (Nat.log 16 n + 1) n).map Char.toUpper

section nonces

theorem hexDigit?_toUpper_hexChar {d : ℕ} (h : d < 16) :
    hexDigit? (hexChar d).toUpper = some d := by
  interval_cases d <;> decide

theorem exists_hexChar_of_mem_hexText {width n : ℕ} {c : Char} (h : c ∈ hexText width n) :
    ∃ d < 16, c = hexChar d := by
  induction width generalizing n with
  | zero => simp [hexText] at h
  | succ width ih =>
      rw [hexText, List.mem_append, List.mem_singleton] at h
      obtain h | rfl := h
      · exact ih h
      · exact ⟨n % 16, Nat.mod_lt n (by omega), rfl⟩

theorem ignoringCase_toStringX (n : ℕ) :
    ignoringCase (toStringX n) = ignoringCase (hexText (Nat.log 16 n + 1) n) := by
  rw [ignoringCase, toStringX, List.map_map, ignoringCase, List.map_inj_left]
  intro c hc
  obtain ⟨d, hd, rfl⟩ := exists_hexChar_of_mem_hexText hc
  rw [Function.comp_apply, toLower_eq_hexChar (hexDigit?_toUpper_hexChar hd),
    toLower_eq_hexChar (hexDigit?_hexChar hd)]

theorem isHexDigit_toStringX (n : ℕ) : ∀ c ∈ toStringX n, isHexDigit c := by
  intro c hc
  obtain ⟨lower, hlower, rfl⟩ := List.mem_map.mp hc
  obtain ⟨d, hd, rfl⟩ := exists_hexChar_of_mem_hexText hlower
  rw [isHexDigit, hexDigit?_toUpper_hexChar hd]
  rfl

theorem length_toStringX (n : ℕ) : (toStringX n).length = Nat.log 16 n + 1 := by
  rw [toStringX, List.length_map, length_hexText]

variable {nonce : ℕ}

/-- The text of a nonce of sixteen digits has the bytes of the nonce. -/
theorem hexToReverseByteArray_toStringX (hlow : 2 ^ 60 ≤ nonce) (hhigh : nonce < 2 ^ 64) :
    hexToReverseByteArray (toStringX nonce) = littleEndian 8 nonce := by
  have hlog : Nat.log 16 nonce = 15 := by
    rw [Nat.log_eq_iff (by omega)]
    omega
  have hlength := length_toStringX nonce
  rw [hlog] at hlength
  have hbytes : hexToByteArray (toStringX nonce) =
      hexToByteArray (toHexString (littleEndian 8 nonce).reverse) := by
    rw [hexToByteArray_eq_iff, ignoringCase_toStringX, hlog, toHexString_littleEndian]
    · refine ⟨?_, isHexDigit_toStringX nonce⟩
      rw [hlength]
      decide
    · refine ⟨?_, isHexDigit_toHexString _⟩
      rw [length_toHexString]
      exact even_two_mul _
  rw [hexToReverseByteArray, hbytes, hexToByteArray_of_isHexDigit (isHexDigit_toHexString _),
    pairBytes_toHexString, List.reverse_reverse]

/-- A smaller nonce has less than eight bytes. -/
theorem length_hexToReverseByteArray_toStringX (h : nonce < 2 ^ 60) :
    (hexToReverseByteArray (toStringX nonce)).length < 8 := by
  have hlog : Nat.log 16 nonce < 15 := by
    obtain rfl | hpos := Nat.eq_zero_or_pos nonce
    · rw [Nat.log_zero_right]
      omega
    · apply Nat.log_lt_of_lt_pow hpos.ne'
      omega
  rw [hexToReverseByteArray, List.length_reverse,
    hexToByteArray_of_isHexDigit (isHexDigit_toStringX nonce), length_pairBytes, length_toStringX]
  omega

end nonces

/-- What is hashed for the hash of a block. -/
def headerBytesNonceMixHashBytes (header : Bytes) (nonce : ℕ) (mixHash : List Char) : Bytes :=
  header ++ hexToReverseByteArray (toStringX nonce) ++ hexToReverseByteArray mixHash

/-- A block is announced under the hash of these bytes. -/
def FiroJob.processShareInternal (job : ProgpowJob) (context : ProgpowWorkerContext) (nonce : ℕ)
    (inputHeaderHash mixHash : List Char) :
    Except SubmitException (MinedShare × Option (List Char)) :=
  job.processShareWith
    (fun header nonce mixHash _ =>
      job.blockHasher (headerBytesNonceMixHashBytes header nonce mixHash))
    context nonce inputHeaderHash mixHash

def KiiroJob.processShareInternal (job : ProgpowJob) (context : ProgpowWorkerContext) (nonce : ℕ)
    (inputHeaderHash mixHash : List Char) :
    Except SubmitException (MinedShare × Option (List Char)) :=
  job.processShareWith
    (fun header nonce mixHash _ =>
      job.blockHasher (headerBytesNonceMixHashBytes header nonce mixHash))
    context nonce inputHeaderHash mixHash

/-- The two coins whose jobs announce their blocks so. -/
inductive CustomJob where
  | firo
  | kiiro

def CustomJob.processShareInternal : CustomJob → ProgpowJob → ProgpowWorkerContext → ℕ →
    List Char → List Char → Except SubmitException (MinedShare × Option (List Char))
  | firo => FiroJob.processShareInternal
  | kiiro => KiiroJob.processShareInternal

theorem CustomJob.processShareInternal_eq (coin : CustomJob) (job : ProgpowJob)
    (context : ProgpowWorkerContext) (nonce : ℕ) (inputHeaderHash mixHash : List Char) :
    coin.processShareInternal job context nonce inputHeaderHash mixHash =
      job.processShareWith
        (fun header nonce mixHash _ =>
          job.blockHasher (headerBytesNonceMixHashBytes header nonce mixHash))
        context nonce inputHeaderHash mixHash := by
  cases coin with
  | firo => rfl
  | kiiro => rfl

namespace ProgpowJob

variable (job : ProgpowJob) (context : ProgpowWorkerContext) (nonce : ℕ)

/-- The header part of the block that a worker finds with a nonce. -/
def blockHeader : Option Bytes :=
  (job.compute (job.headerHash context.extraNonce1) nonce).map fun computed =>
    serializeBlockHeader (job.headerBytes context.extraNonce1) nonce computed.1.reverse

/-- The text of the hash that a block with a header has. -/
def hashText (header : Bytes) : String := String.ofList (toHexString (job.blockHasher header))

/-- The hash of other bytes is also the one of the header part. -/
def Collides (mixHash : List Char) : Prop :=
  ∃ header, job.blockHeader context nonce = some header ∧
    headerBytesNonceMixHashBytes (job.headerBytes context.extraNonce1) nonce mixHash ≠ header ∧
    job.blockHasher
        (headerBytesNonceMixHashBytes (job.headerBytes context.extraNonce1) nonce mixHash) =
      job.blockHasher header

variable {job context nonce} {blockHash : Bytes → ℕ → List Char → Bytes → Bytes}
  {inputHeaderHash mixHash : List Char} {share : MinedShare} {block : List Char}

/-- What is known of a block candidate. -/
theorem of_candidate
    (h : job.processShareWith blockHash context nonce inputHeaderHash mixHash =
      .ok (share, some block)) :
    ∃ mixHashOut result,
      job.compute (job.headerHash context.extraNonce1) nonce = some (mixHashOut, result) ∧
      mixHash = toHexString mixHashOut ∧
      block = toHexString (job.serializeBlock (job.headerBytes context.extraNonce1)
        (job.serializeCoinbase context.extraNonce1) nonce mixHashOut.reverse) ∧
      share.blockHash = some (String.ofList (toHexString
        (blockHash (job.headerBytes context.extraNonce1) nonce mixHash result))) := by
  rw [processShareWith] at h
  dsimp only at h
  split at h
  · cases h
  · rename_i hheader
    split at h
    · cases h
    · rename_i mixHashOut result hcompute
      split at h
      · cases h
      · rename_i hmix
        split at h
        · cases h
        · rename_i difficulty hdifficulty
          rw [Except.ok.injEq, Prod.mk.injEq] at h
          obtain ⟨hshare, hblock⟩ := h
          split at hblock
          · rename_i hcandidate
            refine ⟨mixHashOut, result, hcompute, not_not.mp hmix,
              (Option.some.inj hblock).symm, ?_⟩
            rw [← hshare]
            exact if_pos hcandidate
          · cases hblock

end ProgpowJob

/-- The answer of a node that has a block, which it was asked for. -/
def getBlockReply (hash : String) (transactions : List String) :
    RpcReply DaemonResponses.Block where
  response := some { hash := some hash, transactions := some transactions }

namespace CustomJob

variable (coin : CustomJob) (job : ProgpowJob) (context : ProgpowWorkerContext) (nonce : ℕ)
  (inputHeaderHash mixHash : List Char)

/-- A block candidate is announced under the hash of the header part of its block, and it is found
when the node has taken it. -/
def AnnouncesBlocks : Prop :=
  ∀ share block,
    coin.processShareInternal job context nonce inputHeaderHash mixHash = .ok (share, some block) →
    ∃ header rest, job.blockHeader context nonce = some header ∧
      block = toHexString (header ++ rest) ∧ share.blockHash = some (job.hashText header) ∧
      ∀ transactions, submitBlock share {} (getBlockReply (job.hashText header) transactions) =
        some { accepted := true, coinbaseTx := transactions.head? }

variable {coin job context nonce inputHeaderHash mixHash}

theorem hashText_inj {header header' : Bytes} :
    job.hashText header = job.hashText header' ↔
      job.blockHasher header = job.blockHasher header' := by
  rw [ProgpowJob.hashText, ProgpowJob.hashText, String.ofList_inj, toHexString_injective.eq_iff]

/-- The bytes that are hashed are those of the header part from sixteen digits on. -/
theorem headerBytesNonceMixHashBytes_eq_iff (hnonce : nonce < 2 ^ 64) (header mixHashOut : Bytes) :
    headerBytesNonceMixHashBytes header nonce (toHexString mixHashOut) =
      ProgpowJob.serializeBlockHeader header nonce mixHashOut.reverse ↔ 2 ^ 60 ≤ nonce := by
  have hmix : hexToReverseByteArray (toHexString mixHashOut) = mixHashOut.reverse := by
    rw [hexToReverseByteArray, hexToByteArray_of_isHexDigit (isHexDigit_toHexString _),
      pairBytes_toHexString]
  rw [headerBytesNonceMixHashBytes, ProgpowJob.serializeBlockHeader, hmix,
    List.append_cancel_right_eq, List.append_cancel_left_eq]
  constructor
  · intro hbytes
    by_contra hsmall
    have hlength := length_hexToReverseByteArray_toStringX (not_le.mp hsmall)
    rw [hbytes, length_littleEndian] at hlength
    exact lt_irrefl 8 hlength
  · exact fun hlarge => hexToReverseByteArray_toStringX hlarge hnonce

/-- What is known of a block candidate and the header part of its block. -/
theorem of_candidate {share : MinedShare} {block : List Char}
    (h : coin.processShareInternal job context nonce inputHeaderHash mixHash =
      .ok (share, some block)) :
    ∃ mixHashOut rest, mixHash = toHexString mixHashOut ∧
      job.blockHeader context nonce = some (ProgpowJob.serializeBlockHeader
        (job.headerBytes context.extraNonce1) nonce mixHashOut.reverse) ∧
      block = toHexString (ProgpowJob.serializeBlockHeader
        (job.headerBytes context.extraNonce1) nonce mixHashOut.reverse ++ rest) ∧
      share.blockHash = some (job.hashText
        (headerBytesNonceMixHashBytes (job.headerBytes context.extraNonce1) nonce mixHash)) := by
  rw [processShareInternal_eq] at h
  obtain ⟨mixHashOut, result, hcompute, hmix, hblock, hhash⟩ := ProgpowJob.of_candidate h
  have hheader : job.blockHeader context nonce = some (ProgpowJob.serializeBlockHeader
      (job.headerBytes context.extraNonce1) nonce mixHashOut.reverse) := by
    rw [ProgpowJob.blockHeader, hcompute, Option.map_some]
  rw [ProgpowJob.serializeBlock, List.append_assoc, List.append_assoc] at hblock
  exact ⟨mixHashOut, _, hmix, hheader, hblock, hhash⟩

theorem submitBlock_getBlockReply {share : MinedShare} {hash : String}
    (h : share.blockHash = some hash) (transactions : List String) :
    submitBlock share {} (getBlockReply hash transactions) =
      some { accepted := true, coinbaseTx := transactions.head? } := by
  simp [submitBlock, getBlockReply, h]

theorem exists_candidate_of_isSome
    (h : ((coin.processShareInternal job context nonce inputHeaderHash mixHash).toOption.bind
      Prod.snd).isSome) :
    ∃ share block, coin.processShareInternal job context nonce inputHeaderHash mixHash =
      .ok (share, some block) := by
  cases hprocess : coin.processShareInternal job context nonce inputHeaderHash mixHash with
  | error exception =>
      rw [hprocess] at h
      cases h
  | ok result =>
      rw [hprocess] at h
      obtain ⟨block, hblock⟩ := Option.isSome_iff_exists.mp h
      refine ⟨result.1, block, ?_⟩
      rw [← hblock]
      rfl

/-- A block that is announced under its hash has sixteen digits, or the hasher a collision. -/
theorem large_or_collides_of_announcesBlocks (hnonce : nonce < 2 ^ 64)
    (hcandidate : ∃ share block,
      coin.processShareInternal job context nonce inputHeaderHash mixHash =
        .ok (share, some block))
    (h : coin.AnnouncesBlocks job context nonce inputHeaderHash mixHash) :
    2 ^ 60 ≤ nonce ∨ job.Collides context nonce mixHash := by
  obtain ⟨share, block, hprocess⟩ := hcandidate
  obtain ⟨mixHashOut, -, rfl, hheader, -, hhash⟩ := of_candidate hprocess
  obtain ⟨header, -, hheader', -, hhash', -⟩ := h share block hprocess
  rw [hheader, Option.some.injEq] at hheader'
  subst hheader'
  by_cases hlarge : 2 ^ 60 ≤ nonce
  · exact Or.inl hlarge
  · refine Or.inr ⟨_, hheader, ?_, ?_⟩
    · exact fun hsame => hlarge ((headerBytesNonceMixHashBytes_eq_iff hnonce _ _).mp hsame)
    · rw [hhash, Option.some.injEq] at hhash'
      exact hashText_inj.mp hhash'

/-- A block is announced under its hash exactly if its nonce has sixteen digits, collisions of the
hasher aside. -/
theorem announcesBlocks_iff (coin : CustomJob) (job : ProgpowJob) (context : ProgpowWorkerContext)
    {nonce : ℕ} (hnonce : nonce < 2 ^ 64) (inputHeaderHash mixHash : List Char)
    (hcandidate : ∃ share block,
      coin.processShareInternal job context nonce inputHeaderHash mixHash =
        .ok (share, some block)) :
    coin.AnnouncesBlocks job context nonce inputHeaderHash mixHash ↔
      2 ^ 60 ≤ nonce ∨ job.Collides context nonce mixHash := by
  refine ⟨large_or_collides_of_announcesBlocks hnonce hcandidate, ?_⟩
  intro h share block hprocess
  obtain ⟨mixHashOut, rest, rfl, hheader, hblock, hhash⟩ := of_candidate hprocess
  have hreal : share.blockHash = some (job.hashText (ProgpowJob.serializeBlockHeader
      (job.headerBytes context.extraNonce1) nonce mixHashOut.reverse)) := by
    rw [hhash, Option.some.injEq, hashText_inj]
    obtain hlarge | ⟨header, hheader', -, hcollision⟩ := h
    · rw [(headerBytesNonceMixHashBytes_eq_iff hnonce _ _).mpr hlarge]
    · rw [hheader, Option.some.injEq] at hheader'
      rw [hcollision, hheader']
  exact ⟨_, rest, hheader, hblock, hreal, submitBlock_getBlockReply hreal⟩

end CustomJob

namespace EasyBlock

/-- A job that takes every nonce for a block, and has what is hashed for its hash. -/
def easyJob : ProgpowJob where
  blockTemplate :=
    { height := 1, version := 4, curTime := 5, previousBlockhash := List.replicate 32 6
      bits := List.replicate 4 7, transactions := [] }
  coinbaseInitial := []
  coinbaseFinal := []
  merkleSteps := []
  networkDifficulty := 1
  shareMultiplier := 1
  blockTargetValue := 1
  coinbaseHasher _ := List.replicate 32 8
  doubleDigest := id
  headerHasher _ := List.replicate 32 9
  blockHasher := id
  compute _ _ := some (List.replicate 32 0xab, [1])
  isLow _ _ := false
  shareDiff _ := ""

def context : ProgpowWorkerContext := { difficulty := 1, extraNonce1 := [] }

def inputHeaderHash : List Char := toHexString (List.replicate 32 9)

def mixHash : List Char := toHexString (List.replicate 32 0xab)

end EasyBlock

open EasyBlock in
/-- A nonce of one digit, which has no byte in what is hashed. -/
theorem not_announcesBlocks_one :
    ¬ CustomJob.firo.AnnouncesBlocks easyJob context 1 inputHeaderHash mixHash := by
  intro h
  obtain hlarge | ⟨header, -, hne, hsame⟩ :=
    CustomJob.large_or_collides_of_announcesBlocks (by decide)
      (CustomJob.exists_candidate_of_isSome (by decide +kernel)) h
  · exact absurd hlarge (by decide)
  · exact hne hsame

open EasyBlock in
theorem announcesBlocks_iff_sixteenDigits :
    CustomJob.kiiro.AnnouncesBlocks easyJob context (2 ^ 60) inputHeaderHash mixHash ↔
      2 ^ 60 ≤ 2 ^ 60 ∨ easyJob.Collides context (2 ^ 60) mixHash :=
  CustomJob.announcesBlocks_iff .kiiro easyJob context (by decide) inputHeaderHash mixHash
    (CustomJob.exists_candidate_of_isSome (by decide +kernel))

end Miningcore.Progpow
