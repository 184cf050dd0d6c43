import Miningcore.Blockchain.Bitcoin.BitcoinJob
import Miningcore.Foundation.ByteFormats
import Mathlib.Data.List.DropRight
import Miningcore.Blockchain.Bitcoin.CoinbaseOutputs

/-!
# The format of transactions

What nodes read a transaction of a block as. Coins differ in a time behind the
version and in a comment and a payload behind the lock time.
-/

namespace Miningcore.Bitcoin

open Foundation ByteFormat

theorem littleEndian_eq_bytesOf (width n : ℕ) : littleEndian width n = bytesOf width n := by
  induction width generalizing n with
  | zero => rfl
  | succ width ih => rw [littleEndian, bytesOf, ih]

theorem varInt_eq_writeCompactSize (n : ℕ) : BitcoinJob.varInt n = writeCompactSize n := by
  simp only [BitcoinJob.varInt, writeCompactSize, littleEndian_eq_bytesOf]

/-- The fields that a coin has besides the common ones. -/
structure TransactionKind where
  hasTime : Bool
  hasComment : Bool
  hasPayload : Bool
deriving DecidableEq

structure TransactionInput where
  prevHash : Bytes
  prevIndex : ℕ
  scriptSig : Bytes
  sequence : ℕ
deriving DecidableEq

structure TransactionOutput where
  value : ℕ
  scriptPubKey : Bytes
deriving DecidableEq

structure Transaction where
  version : ℕ
  time : Option ℕ
  inputs : List TransactionInput
  outputs : List TransactionOutput
  lockTime : ℕ
  comment : Option Bytes
  payload : Option Bytes
deriving DecidableEq

def inputFormat : ByteFormat TransactionInput :=
  ((fixed 32).pair ((number 4).pair (sized.pair (number 4)))).map
    (fun value => ⟨value.1, value.2.1, value.2.2.1, value.2.2.2⟩)
    (fun input => (input.prevHash, input.prevIndex, input.scriptSig, input.sequence))
    fun _ => rfl

def outputFormat : ByteFormat TransactionOutput :=
  ((number 8).pair sized).map (fun value => ⟨value.1, value.2⟩)
    (fun output => (output.value, output.scriptPubKey)) fun _ => rfl

theorem length_write_outputFormat (output : TransactionOutput) :
    (outputFormat.write output).length = 8 + (sized.write output.scriptPubKey).length := by
  have hwrite : outputFormat.write output =
      bytesOf 8 output.value ++ sized.write output.scriptPubKey := rfl
  rw [hwrite, List.length_append, length_bytesOf]

def transactionFormat (kind : TransactionKind) : ByteFormat Transaction :=
  ((number 4).pair ((optional kind.hasTime (number 4)).pair ((counted inputFormat).pair
    ((counted outputFormat).pair ((number 4).pair
      ((optional kind.hasComment sized).pair (optional kind.hasPayload sized))))))).map
    (fun value => ⟨value.1, value.2.1, value.2.2.1, value.2.2.2.1, value.2.2.2.2.1,
      value.2.2.2.2.2.1, value.2.2.2.2.2.2⟩)
    (fun tx => (tx.version, tx.time, tx.inputs, tx.outputs, tx.lockTime, tx.comment, tx.payload))
    fun _ => rfl

theorem isCanonical_inputFormat : inputFormat.IsCanonical :=
  ((isCanonical_fixed 32).pair ((isCanonical_number 4).pair
    (isCanonical_sized.pair (isCanonical_number 4)))).map fun _ => rfl

theorem isCanonical_outputFormat : outputFormat.IsCanonical :=
  ((isCanonical_number 8).pair isCanonical_sized).map fun _ => rfl

theorem isCanonical_transactionFormat (kind : TransactionKind) :
    (transactionFormat kind).IsCanonical :=
  ((isCanonical_number 4).pair (((isCanonical_number 4).optional kind.hasTime).pair
    (isCanonical_inputFormat.counted.pair (isCanonical_outputFormat.counted.pair
      ((isCanonical_number 4).pair ((isCanonical_sized.optional kind.hasComment).pair
        (isCanonical_sized.optional kind.hasPayload))))))).map fun _ => rfl

variable {kind : TransactionKind}

/-- The script of an only input has the length that stands in front of it. -/
theorem inputs_of_read {version : ℕ} {time : Option ℕ} {prevHash : Bytes} {prevIndex length : ℕ}
    {bytes rest : Bytes} {tx : Transaction} (hversion : version < 256 ^ 4)
    (htime : (optional kind.hasTime (number 4)).Fits time) (hprevHash : (fixed 32).Fits prevHash)
    (hprevIndex : prevIndex < 256 ^ 4) (hlength : length < 2 ^ 64)
    (h : (transactionFormat kind).read ((number 4).write version ++
      ((optional kind.hasTime (number 4)).write time ++ (compactSize.write 1 ++
        (prevHash ++ ((number 4).write prevIndex ++ (compactSize.write length ++ bytes)))))) =
      some (tx, rest)) :
    ∃ input, tx.inputs = [input] ∧ input.scriptSig.length = length := by
  obtain ⟨value, hvalue, rfl⟩ := read_map_eq_some.mp h
  obtain ⟨-, hvalue⟩ := (read_pair_write hversion).mp hvalue
  obtain ⟨-, hvalue⟩ := (read_pair_write htime).mp hvalue
  obtain ⟨mid, hinputs, -⟩ := read_pair_eq_some.mp hvalue
  obtain ⟨input, hinput, hread⟩ := read_counted_one.mp hinputs
  obtain ⟨fields, hfields, rfl⟩ := read_map_eq_some.mp hread
  obtain ⟨-, hfields⟩ := (read_pair_write hprevHash).mp hfields
  obtain ⟨-, hfields⟩ := (read_pair_write hprevIndex).mp hfields
  obtain ⟨mid', hscript, -⟩ := read_pair_eq_some.mp hfields
  exact ⟨_, hinput, length_of_read_sized hlength hscript⟩

end Miningcore.Bitcoin

/-!
# The serialization of the coinbase

A job serializes the coinbase but for the extranonces. The length of the input's
script stands in front of them and counts a placeholder for both.

## Implementation notes

The operations that push onto a script, the reading of transactions and the double
hash are parameters. `none` is an exception, after which there is no job. A text that
is missing is empty.
-/

namespace Miningcore.Bitcoin

open Foundation

/-- What jobs use of the library for scripts and transactions. -/
structure ScriptLibrary where
  pushInteger : ℤ → Bytes
  pushBytes : Bytes → Bytes
  /-- Whether a transaction has a witness. -/
  hasWitness : Bytes → Option Bool
  sha256D : Bytes → Bytes

def extranoncePlaceHolderLength : ℕ := 8

/-- `Trim` -/
def trim (s : List Char) : List Char := (s.dropWhile isWhiteSpace).rdropWhile isWhiteSpace

/-- `Encoding.UTF8` -/
def utf8Bytes (s : List Char) : Bytes := s.flatMap String.utf8EncodeChar

/-- `Encoding.ASCII`, with a question mark for every unit that has no byte. -/
def asciiBytes (s : List Char) : Bytes :=
  s.flatMap fun c =>
    if c.toNat < 0x80 then [c.toNat.toUInt8] else if c.toNat < 0x10000 then [63] else [63, 63]

/-- The array of a stream, whose length is an `int`. -/
def toArray (bytes : Bytes) : Option Bytes := if bytes.length < 2 ^ 31 then some bytes else none

def varString (bytes : Bytes) : Bytes := BitcoinJob.varInt bytes.length ++ bytes

/-- What a job knows when it serializes its coinbase. -/
structure CoinbaseBuilder extends CoinbaseJob where
  symbol : String
  coinbaseTxVersion : UInt32
  coinbaseIgnoreAuxFlags : Bool := false
  /-- The comment of the coin. -/
  coinbaseTxComment : List Char := []
  /-- The comment in the extra configuration of the pool. -/
  extraCoinbaseTxComment : List Char := []
  coinbaseString : List Char := []
  isPoS : Bool := false
  curTime : UInt32
  coinbaseAuxFlags : List Char := []
  coinbasePayload : List Char := []
  defaultWitnessCommitment : List Char := []
  /-- The data of the template's transactions. -/
  transactions : List (List Char) := []
  /-- The seconds of the clock. -/
  now : ℤ

namespace CoinbaseBuilder

variable {Money : Type} (money : MoneyLibrary Money) (library : ScriptLibrary)
  (builder : CoinbaseBuilder)

def hasPayload : Bool := builder.coin.hasMasterNodes && builder.coinbasePayload ≠ []

/-- The version that `Init` sets; a payload makes it a special transaction. -/
def txVersion : UInt32 :=
  let txType : UInt32 := 5
  if builder.hasPayload then (3 : UInt32) + txType <<< (16 : UInt32) else builder.coinbaseTxVersion

def txComment : List Char :=
  if builder.extraCoinbaseTxComment ≠ [] then builder.extraCoinbaseTxComment
  else builder.coinbaseTxComment

def scriptSigFinal : Bytes :=
  library.pushBytes (utf8Bytes (if builder.coinbaseString ≠ [] then trim builder.coinbaseString
    else "Kriptokyng Pool".toList))

def generateScriptSigInitial : Bytes :=
  library.pushInteger builder.blockTemplate.height ++
    (if !builder.coinbaseIgnoreAuxFlags && builder.coinbaseAuxFlags ≠ [] then
      library.pushBytes (hexToByteArray builder.coinbaseAuxFlags)
    else []) ++
    library.pushInteger builder.now ++ library.pushInteger 0

/-- The script of the witness commitment, which two coins compute from the one of the template. -/
def witnessCommitment : Option Bytes :=
  let raw := hexToByteArray builder.defaultWitnessCommitment
  if builder.symbol = "ANOK" ∨ builder.symbol = "RVH" then
    if builder.transactions.all fun data => (library.hasWitness (hexToByteArray data)).isSome then
      some ([0xaa, 0x21, 0xa9, 0xed] ++ library.sha256D (raw ++ List.replicate 32 0))
    else none
  else some raw

def serializeOutput (amount : Int64) (script : Bytes) : Bytes :=
  littleEndian 8 amount.toUInt64.toNat ++ varString script

/-- The output of the witness commitment, if the template has one. -/
def serializeWitness : Option (List Bytes) :=
  if builder.defaultWitnessCommitment ≠ [] then
    (builder.witnessCommitment library).map fun raw => [serializeOutput 0 raw]
  else some []

/-- The outputs behind the witness commitment. -/
def serializeOutputTransaction (outputs : List (TxOut Money)) : Option Bytes :=
  (builder.serializeWitness library).map fun witness =>
    let serialized := outputs.map fun output =>
      serializeOutput (money.satoshi output.value) output.scriptPubKey
    BitcoinJob.varInt (serialized.length + witness.length) ++ (witness ++ serialized).flatten

/-- The comment and the payload behind the lock time. -/
def appendCoinbaseFinal : Bytes :=
  (if builder.txComment ≠ [] then varString (asciiBytes builder.txComment) else []) ++
    if builder.hasPayload then varString (hexToByteArray builder.coinbasePayload) else []

/-- The length of the input's script with the placeholder in place of the extranonces. -/
def sigScriptLength : ℕ :=
  ((builder.generateScriptSigInitial library).length + extranoncePlaceHolderLength +
    (builder.scriptSigFinal library).length) % 2 ^ 32

def serializeInitial : Bytes :=
  littleEndian 4 builder.txVersion.toNat ++
    (if builder.isPoS then littleEndian 4 builder.curTime.toNat else []) ++
    BitcoinJob.varInt 1 ++ List.replicate 32 0 ++ littleEndian 4 (2 ^ 32 - 1) ++
    BitcoinJob.varInt (builder.sigScriptLength library) ++ builder.generateScriptSigInitial library

def serializeFinal (txOutBytes : Bytes) : Bytes :=
  builder.scriptSigFinal library ++ littleEndian 4 0 ++ txOutBytes ++ littleEndian 4 0 ++
    builder.appendCoinbaseFinal

/-- Sets the two parts of the coinbase of a job. -/
def buildCoinbase (job : BitcoinJob) : Option BitcoinJob := do
  let txOut ← builder.createOutputTransaction money
  let coinbaseInitial ← toArray (builder.serializeInitial library)
  let txOutBytes ← builder.serializeOutputTransaction money library txOut
  let coinbaseFinal ← toArray (builder.serializeFinal library txOutBytes)
  some { job with coinbaseInitial, coinbaseFinal }

end CoinbaseBuilder

end Miningcore.Bitcoin
