import Miningcore.Blockchain.Bitcoin.BitcoinPool
import Miningcore.Blockchain.Bitcoin.CoinbaseConservation
import Miningcore.Blockchain.Bitcoin.TransactionFormat

/-!
# Coinbases of accepted shares

The coinbase of a share is assembled around the extranonces. It is a transaction with
the script that was put together when the extranonces fill the placeholder.
-/

namespace Miningcore.Bitcoin

open Foundation Blockchain ByteFormat

/-- The coinbase is one transaction, and the script of its only input is as long as the one that was
put together. -/
def WellFormed (kind : TransactionKind) (scriptSig coinbase : Bytes) : Prop :=
  ∃ tx input, (transactionFormat kind).read coinbase = some (tx, []) ∧ tx.inputs = [input] ∧
    input.scriptSig.length = scriptSig.length

/-- The coinbase of a submission that becomes a share. -/
def BitcoinJob.acceptedCoinbase (job : BitcoinJob) (submission : Submission) (state : JobState) :
    Option Bytes :=
  match (job.processShare submission state).2 with
  | .ok _ => some (job.serializeCoinbase submission.context.extraNonce1 submission.extraNonce2)
  | .error _ => none

namespace CoinbaseBuilder

variable {Money : Type} (money : MoneyLibrary Money) (library : ScriptLibrary)
  (builder : CoinbaseBuilder)

/-- The fields that the coinbase has besides the common ones. -/
def kind : TransactionKind := ⟨builder.isPoS, builder.txComment ≠ [], builder.hasPayload⟩

/-- The script of the input with the bytes of two extranonces. -/
def scriptSig (extraNonce1 extraNonce2 : List Char) : Bytes :=
  builder.generateScriptSigInitial library ++ hexToByteArray extraNonce1 ++
    hexToByteArray extraNonce2 ++ builder.scriptSigFinal library

/-- The transaction that a script and outputs make. -/
def transaction (scriptSig : Bytes) (outputs : List TransactionOutput) : Transaction where
  version := builder.txVersion.toNat
  time := if builder.isPoS then some builder.curTime.toNat else none
  inputs := [⟨List.replicate 32 0, 2 ^ 32 - 1, scriptSig, 0⟩]
  outputs
  lockTime := 0
  comment := if builder.txComment ≠ [] then some (asciiBytes builder.txComment) else none
  payload := if builder.hasPayload then some (hexToByteArray builder.coinbasePayload) else none

variable {money library builder}

theorem toArray_eq_some_iff {bytes array : Bytes} :
    toArray bytes = some array ↔ bytes.length < 2 ^ 31 ∧ bytes = array := by
  rw [toArray, Option.ite_none_right_eq_some, Option.some.injEq]

theorem serializeOutput_eq_write (amount : Int64) (script : Bytes) :
    serializeOutput amount script = outputFormat.write ⟨amount.toUInt64.toNat, script⟩ := by
  rw [serializeOutput, varString, littleEndian_eq_bytesOf, varInt_eq_writeCompactSize]
  rfl

/-- The outputs are written as a list of their number. -/
theorem exists_of_serializeOutputTransaction {outputs : List (TxOut Money)} {txOutBytes : Bytes}
    (h : builder.serializeOutputTransaction money library outputs = some txOutBytes) :
    ∃ written : List TransactionOutput, (counted outputFormat).write written = txOutBytes ∧
      ∀ output ∈ written, output.value < 256 ^ 8 := by
  obtain ⟨witness, hwitness, rfl⟩ := Option.map_eq_some_iff.mp h
  have hexists : ∃ commitments : List TransactionOutput,
      witness = commitments.map outputFormat.write ∧
        ∀ output ∈ commitments, output.value < 256 ^ 8 := by
    rw [serializeWitness] at hwitness
    split at hwitness
    · obtain ⟨raw, -, rfl⟩ := Option.map_eq_some_iff.mp hwitness
      refine ⟨[⟨(0 : Int64).toUInt64.toNat, raw⟩], ?_, ?_⟩
      · rw [serializeOutput_eq_write, List.map_singleton]
      · intro output houtput
        rw [List.mem_singleton.mp houtput]
        exact UInt64.toNat_lt _
    · cases hwitness
      exact ⟨[], rfl, by simp⟩
  obtain ⟨commitments, rfl, hcommitments⟩ := hexists
  refine ⟨commitments ++ outputs.map fun output =>
    ⟨(money.satoshi output.value).toUInt64.toNat, output.scriptPubKey⟩, ?_, ?_⟩
  · simp only [counted, compactSize, varInt_eq_writeCompactSize, serializeOutput_eq_write,
      List.length_append, List.length_map, List.map_append, List.map_map, Function.comp_def,
      Nat.add_comm]
  · intro output houtput
    obtain houtput | houtput := List.mem_append.mp houtput
    · exact hcommitments output houtput
    · obtain ⟨txOut, -, rfl⟩ := List.mem_map.mp houtput
      exact UInt64.toNat_lt _

/-- What stands in front of the script, and the rest of the coinbase. -/
theorem serializeInitial_append (bytes : Bytes) :
    builder.serializeInitial library ++ bytes =
      (number 4).write builder.txVersion.toNat ++
        ((optional builder.isPoS (number 4)).write
            (if builder.isPoS then some builder.curTime.toNat else none) ++
          (compactSize.write 1 ++ (List.replicate 32 0 ++ ((number 4).write (2 ^ 32 - 1) ++
            (compactSize.write (builder.sigScriptLength library) ++
              (builder.generateScriptSigInitial library ++ bytes)))))) := by
  have htime : (optional builder.isPoS (number 4)).write
      (if builder.isPoS then some builder.curTime.toNat else none) =
        if builder.isPoS then littleEndian 4 builder.curTime.toNat else [] := by
    rw [littleEndian_eq_bytesOf]
    cases builder.isPoS with
    | true => rfl
    | false => rfl
  rw [htime, serializeInitial, varInt_eq_writeCompactSize, varInt_eq_writeCompactSize,
    littleEndian_eq_bytesOf, littleEndian_eq_bytesOf]
  simp only [List.append_assoc]
  rfl

/-- A text that the coinbase has or leaves out. -/
theorem write_optional_sized (present : Bool) (isPresent : Prop) [Decidable isPresent]
    (text : Bytes) :
    (optional present sized).write (if isPresent then some text else none) =
      if isPresent then varString text else [] := by
  split
  · rw [varString, varInt_eq_writeCompactSize]
    rfl
  · rfl

/-- What stands behind the script. -/
theorem serializeFinal_eq (txOutBytes : Bytes) :
    builder.serializeFinal library txOutBytes =
      builder.scriptSigFinal library ++ ((number 4).write 0 ++ (txOutBytes ++
        ((number 4).write 0 ++
          ((optional (decide (builder.txComment ≠ [])) sized).write
              (if builder.txComment ≠ [] then some (asciiBytes builder.txComment) else none) ++
            (optional builder.hasPayload sized).write
              (if builder.hasPayload then some (hexToByteArray builder.coinbasePayload)
                else none))))) := by
  rw [write_optional_sized, write_optional_sized, serializeFinal, appendCoinbaseFinal,
    littleEndian_eq_bytesOf]
  simp only [List.append_assoc]
  rfl

/-- A script that is as long as the prefix says makes the assembled bytes a transaction. -/
theorem write_transaction {extraNonces : Bytes} {written : List TransactionOutput}
    (hlength : builder.sigScriptLength library = (builder.generateScriptSigInitial library ++
      extraNonces ++ builder.scriptSigFinal library).length) :
    (transactionFormat builder.kind).write (builder.transaction
        (builder.generateScriptSigInitial library ++ extraNonces ++
          builder.scriptSigFinal library) written) =
      builder.serializeInitial library ++ (extraNonces ++
        builder.serializeFinal library ((counted outputFormat).write written)) := by
  rw [serializeInitial_append, serializeFinal_eq, hlength]
  simp only [transactionFormat, transaction, kind, map, pair, counted, inputFormat, sized, fixed,
    List.map_cons, List.map_nil, List.flatten_cons, List.flatten_nil, List.append_assoc,
    List.append_nil, List.length_cons, List.length_nil]

/-- What a job is built of. -/
theorem exists_of_buildCoinbase {base job : BitcoinJob}
    (h : builder.buildCoinbase money library base = some job) :
    ∃ written : List TransactionOutput, (∀ output ∈ written, output.value < 256 ^ 8) ∧
      job.coinbaseInitial = builder.serializeInitial library ∧
      (builder.serializeInitial library).length < 2 ^ 31 ∧
      job.coinbaseFinal =
        builder.serializeFinal library ((counted outputFormat).write written) ∧
      (builder.serializeFinal library ((counted outputFormat).write written)).length < 2 ^ 31 := by
  rw [buildCoinbase] at h
  obtain ⟨txOut, -, h⟩ := Option.bind_eq_some_iff.mp h
  obtain ⟨coinbaseInitial, hinitial, h⟩ := Option.bind_eq_some_iff.mp h
  obtain ⟨txOutBytes, houtputs, h⟩ := Option.bind_eq_some_iff.mp h
  obtain ⟨coinbaseFinal, hfinal, h⟩ := Option.bind_eq_some_iff.mp h
  cases h
  obtain ⟨written, rfl, hvalues⟩ := exists_of_serializeOutputTransaction houtputs
  obtain ⟨hinitialLength, rfl⟩ := toArray_eq_some_iff.mp hinitial
  obtain ⟨hfinalLength, rfl⟩ := toArray_eq_some_iff.mp hfinal
  exact ⟨written, hvalues, rfl, hinitialLength, rfl, hfinalLength⟩

section lengths

variable {txOutBytes : Bytes}

/-- The prefix counts the placeholder. -/
theorem sigScriptLength_eq (hinitial : (builder.serializeInitial library).length < 2 ^ 31)
    (hfinal : (builder.serializeFinal library txOutBytes).length < 2 ^ 31) :
    builder.sigScriptLength library = (builder.generateScriptSigInitial library).length + 8 +
      (builder.scriptSigFinal library).length := by
  have hfront : (builder.generateScriptSigInitial library).length + 36 ≤
      (builder.serializeInitial library).length := by
    simp only [serializeInitial, List.length_append, List.length_replicate, length_littleEndian]
    omega
  have hback : (builder.scriptSigFinal library).length + 8 ≤
      (builder.serializeFinal library txOutBytes).length := by
    simp only [serializeFinal, List.length_append, length_littleEndian]
    omega
  rw [sigScriptLength, extranoncePlaceHolderLength]
  exact Nat.mod_eq_of_lt (by omega)

end lengths

/-- A text that a flag leaves out fits when the bytes of both are few. -/
theorem fits_optional_sized (present : Prop) [Decidable present] (text : Bytes)
    (h : ((optional (decide present) sized).write (if present then some text else none)).length <
      2 ^ 31) :
    (optional (decide present) sized).Fits (if present then some text else none) := by
  by_cases hpresent : present
  · rw [if_pos hpresent] at h ⊢
    refine ⟨by simp [hpresent], ?_⟩
    rintro _ ⟨rfl⟩
    exact (length_le_write_sized text).trans_lt (h.trans (by decide))
  · rw [if_neg hpresent]
    exact ⟨by simp [hpresent], by simp⟩

/-- Outputs fit that are written in few bytes. -/
theorem fits_outputs {written : List TransactionOutput}
    (hvalues : ∀ output ∈ written, output.value < 256 ^ 8)
    (hlength : ((counted outputFormat).write written).length < 2 ^ 31) :
    (counted outputFormat).Fits written := by
  have hpositive (output : TransactionOutput) : 0 < (outputFormat.write output).length := by
    rw [length_write_outputFormat]
    omega
  have hcount := length_le_counted hpositive written
  refine ⟨by omega, fun output houtput => ⟨hvalues output houtput, ?_⟩⟩
  have hwritten : (outputFormat.write output).length ≤
      ((counted outputFormat).write written).length := length_write_le_counted houtput
  have hsized := length_le_write_sized output.scriptPubKey
  rw [length_write_outputFormat] at hwritten
  exact lt_of_le_of_lt hsized (by omega)

theorem fits_time : (optional builder.isPoS (number 4)).Fits
    (if builder.isPoS then some builder.curTime.toNat else none) := by
  split
  · rename_i hpos
    refine ⟨hpos.symm, ?_⟩
    rintro _ ⟨rfl⟩
    exact UInt32.toNat_lt _
  · rename_i hpos
    exact ⟨by simp [hpos], by simp⟩

theorem fits_input {scriptSig : Bytes} (hscript : scriptSig.length < 2 ^ 64) :
    (counted inputFormat).Fits [⟨List.replicate 32 0, 2 ^ 32 - 1, scriptSig, 0⟩] := by
  refine ⟨by simp, fun input hinput => ?_⟩
  rw [List.mem_singleton.mp hinput]
  exact ⟨List.length_replicate, by simp, hscript, by simp⟩

theorem fits_transaction {scriptSig : Bytes} {written : List TransactionOutput}
    (hvalues : ∀ output ∈ written, output.value < 256 ^ 8) (hscript : scriptSig.length < 2 ^ 64)
    (hfinal : (builder.serializeFinal library ((counted outputFormat).write written)).length <
      2 ^ 31) :
    (transactionFormat builder.kind).Fits (builder.transaction scriptSig written) := by
  rw [serializeFinal_eq] at hfinal
  simp only [List.length_append] at hfinal
  have houtputs : (counted outputFormat).Fits written := fits_outputs hvalues (by omega)
  have hcomment := fits_optional_sized (builder.txComment ≠ []) (asciiBytes builder.txComment)
    (by omega)
  have hpayload := fits_optional_sized builder.hasPayload (hexToByteArray builder.coinbasePayload)
    (by simp only [Bool.decide_eq_true]; omega)
  refine ⟨UInt32.toNat_lt _, fits_time, fits_input hscript, houtputs, by simp [transaction],
    hcomment, ?_⟩
  simpa [kind, transaction] using hpayload

/-- The assembled bytes are one transaction as long as the extranonces fill the placeholder. -/
theorem wellFormed_serializeCoinbase_iff {base job : BitcoinJob}
    (h : builder.buildCoinbase money library base = some job)
    (extraNonce1 extraNonce2 : List Char) :
    WellFormed builder.kind (builder.scriptSig library extraNonce1 extraNonce2)
        (job.serializeCoinbase extraNonce1 extraNonce2) ↔
      (hexToByteArray extraNonce1).length + (hexToByteArray extraNonce2).length = 8 := by
  obtain ⟨written, hvalues, hinitialBytes, hinitial, hfinalBytes, hfinal⟩ :=
    exists_of_buildCoinbase h
  have hprefix := sigScriptLength_eq hinitial hfinal
  have hprefixLt : builder.sigScriptLength library < 2 ^ 32 := Nat.mod_lt _ (by decide)
  have hscript : (builder.scriptSig library extraNonce1 extraNonce2).length =
      (builder.generateScriptSigInitial library).length + (hexToByteArray extraNonce1).length +
        (hexToByteArray extraNonce2).length + (builder.scriptSigFinal library).length := by
    simp only [scriptSig, List.length_append]
  have hassembled : job.serializeCoinbase extraNonce1 extraNonce2 =
      builder.serializeInitial library ++ (hexToByteArray extraNonce1 ++
        hexToByteArray extraNonce2 ++ builder.serializeFinal library
          ((counted outputFormat).write written)) := by
    rw [BitcoinJob.serializeCoinbase, hinitialBytes, hfinalBytes]
    simp only [List.append_assoc]
  rw [hassembled]
  constructor
  · rintro ⟨tx, input, hread, hinput, hlength⟩
    have hempty : ([] : Bytes).length < 2 ^ 64 := by decide
    have htime := (fits_transaction hvalues hempty hfinal).2.1
    rw [serializeInitial_append] at hread
    obtain ⟨first, hfirst, hfirstLength⟩ := inputs_of_read (UInt32.toNat_lt _) htime
      List.length_replicate (by decide) (by omega) hread
    have hsame : input = first := by simpa [hinput] using hfirst
    rw [hsame, hfirstLength, hprefix, hscript] at hlength
    omega
  · intro hfilled
    have hsame : builder.scriptSig library extraNonce1 extraNonce2 =
        builder.generateScriptSigInitial library ++ (hexToByteArray extraNonce1 ++
          hexToByteArray extraNonce2) ++ builder.scriptSigFinal library := by
      simp only [scriptSig, List.append_assoc]
    have hlength : builder.sigScriptLength library =
        (builder.scriptSig library extraNonce1 extraNonce2).length := by
      omega
    have hfits := fits_transaction hvalues (show (builder.scriptSig library extraNonce1
      extraNonce2).length < 2 ^ 64 by omega) hfinal
    have hread := (transactionFormat builder.kind).read_write _ [] hfits
    rw [List.append_nil] at hread
    rw [hsame] at hlength hread ⊢
    rw [write_transaction hlength] at hread
    exact ⟨_, _, hread, rfl, rfl⟩

/-! ### The extranonces that the pool issues -/

/-- Four bytes are left to the worker. -/
theorem wellFormed_acceptedCoinbase_iff (money : MoneyLibrary Money) (library : ScriptLibrary)
    (builder : CoinbaseBuilder) (base job : BitcoinJob)
    (hbuild : builder.buildCoinbase money library base = some job)
    (provider : ExtraNonceProvider extranonceBytes) (submission : Submission)
    (hissued : submission.context.extraNonce1 = provider.next.1) (state : JobState)
    (coinbase : Bytes) (haccepted : job.acceptedCoinbase submission state = some coinbase) :
    WellFormed builder.kind
        (builder.scriptSig library submission.context.extraNonce1 submission.extraNonce2)
        coinbase ↔ (hexToByteArray submission.extraNonce2).length = 4 := by
  have hfour : (hexToByteArray submission.context.extraNonce1).length = 4 := by
    rw [hissued, hexToByteArray_of_isHexDigit (provider.isHexPairs_next (by decide)).2, length_pairBytes]
    exact congrArg (· / 2) (length_hexText _ _)
  have hcoinbase : job.serializeCoinbase submission.context.extraNonce1 submission.extraNonce2 =
      coinbase := by
    rw [BitcoinJob.acceptedCoinbase] at haccepted
    split at haccepted
    · exact Option.some.inj haccepted
    · cases haccepted
  rw [← hcoinbase, wellFormed_serializeCoinbase_iff hbuild, hfour]
  omega

end CoinbaseBuilder

namespace Assembled

def pushBytes (data : Bytes) : Bytes := data.length.toUInt8 :: data

/-- Short pushes of bytes and of numbers that are not negative. -/
def library : ScriptLibrary where
  pushInteger n :=
    if n = 0 then [0]
    else if n ≤ 16 then [0x50 + n.toNat.toUInt8]
    else pushBytes (littleEndian ((n.toNat.log2 + 1) / 8 + 1) n.toNat)
  pushBytes := pushBytes
  hasWitness _ := some false
  sha256D := id

def builder : CoinbaseBuilder where
  coin := {}
  blockTemplate := { previousBlockhash := "", height := 100, coinbaseValue := 5000000000 }
  poolAddressDestination := [0x51]
  addressToDestination _ := none
  symbol := "BTC"
  coinbaseTxVersion := 1
  curTime := 1700000000
  now := 1700000000

/-- A job that takes every header for a share. -/
def easyJob : BitcoinJob where
  height := 100
  version := 0x20000000
  curTime := 1700000000
  previousBlockhash := List.replicate 32 0
  bits := [0xff, 0xff, 0, 0x1d]
  coinbaseInitial := []
  coinbaseFinal := []
  merkleSteps := []
  transactions := []
  networkDifficulty := 1
  shareMultiplier := 1
  blockTargetValue := 0
  coinbaseHasher := id
  doubleDigest := id
  headerHasher _ _ := 1
  blockHasher _ _ := ""
  isLow _ _ := false
  shareDiff _ := ""

theorem isSome_buildCoinbase :
    (builder.buildCoinbase checkedMoney library easyJob).isSome := by
  decide +kernel

def job : BitcoinJob :=
  (builder.buildCoinbase checkedMoney library easyJob).get isSome_buildCoinbase

theorem buildCoinbase_eq : builder.buildCoinbase checkedMoney library easyJob = some job :=
  (Option.some_get isSome_buildCoinbase).symm

def provider : ExtraNonceProvider extranonceBytes := .initial extranonceBytes 1

/-- The first worker submits an extranonce for the time of the template. -/
def submit (extraNonce2 : String) : Submission where
  context := { difficulty := 1, extraNonce1 := provider.next.1 }
  extraNonce2 := extraNonce2.toList
  nTime := "6553f100".toList
  nonce := "00000000".toList
  now := 1700000000

end Assembled

namespace CoinbaseBuilder

open Assembled in
/-- One byte is submitted for the four that are left to the worker. -/
theorem not_forall_wellFormed :
    ¬∀ (Money : Type) (money : MoneyLibrary Money) (library : ScriptLibrary)
        (builder : CoinbaseBuilder) (base job : BitcoinJob),
      builder.buildCoinbase money library base = some job →
      ∀ (provider : ExtraNonceProvider extranonceBytes) (submission : Submission),
        submission.context.extraNonce1 = provider.next.1 →
        ∀ (state : JobState) (coinbase : Bytes),
          job.acceptedCoinbase submission state = some coinbase →
          WellFormed builder.kind
            (builder.scriptSig library submission.context.extraNonce1 submission.extraNonce2)
            coinbase := by
  intro h
  have hwellFormed := h Int64 checkedMoney library builder easyJob job buildCoinbase_eq provider
    (submit "00") rfl {} _ (show job.acceptedCoinbase (submit "00") {} =
      some (job.serializeCoinbase provider.next.1 "00".toList) by decide +kernel)
  have hlength := (wellFormed_serializeCoinbase_iff buildCoinbase_eq _ _).mp hwellFormed
  exact absurd hlength (by decide +kernel)

open Assembled in
theorem wellFormed_acceptedCoinbase_fourBytes :
    WellFormed builder.kind (builder.scriptSig library provider.next.1 "0a0b0c0d".toList)
      (job.serializeCoinbase provider.next.1 "0a0b0c0d".toList) :=
  (wellFormed_acceptedCoinbase_iff checkedMoney library builder easyJob job buildCoinbase_eq
    provider (submit "0a0b0c0d") rfl {} _ (by decide +kernel)).mpr (by decide +kernel)

end CoinbaseBuilder

end Miningcore.Bitcoin
