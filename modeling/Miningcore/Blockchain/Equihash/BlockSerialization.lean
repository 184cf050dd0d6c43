import Miningcore.Blockchain.Bitcoin.TransactionFormat

/-!
# Blocks of an Equihash job

The number of transactions in front of them is written with its decimal digits in
place of hexadecimal ones. Nodes read another number from ten transactions on, the
coinbase among them.

## Implementation notes

The format of transactions is that of the coin's nodes, which read them from no other
bytes than they write. The solution is what the miner sends, with its length.

## Main results

* `serializeBlock_iff`
-/

namespace Miningcore.Equihash

open Foundation ByteFormat Bitcoin

namespace EquihashJob

/-- The data of the template's transactions. -/
def buildRawTransactionBuffer (transactions : List (List Char)) : Bytes :=
  (transactions.map hexToByteArray).flatten

/-- The decimal digits of a count, an even number of them. -/
def evenDigits (transactionCount : ℕ) : List Char :=
  let txCount := Nat.toDigits 10 transactionCount
  if txCount.length % 2 = 1 then '0' :: txCount else txCount

/-- What is written as the number of transactions, which is nothing for more than 32767. -/
def transactionCountBytes (transactionCount : UInt32) : Bytes :=
  let txCount := evenDigits transactionCount.toNat
  if transactionCount ≤ 0xfc then hexToByteArray txCount
  else if transactionCount ≤ 0x7fff then
    0xfd :: hexToReverseByteArray (if txCount.length = 2 then '0' :: '0' :: txCount else txCount)
  else []

/-- `SerializeBlock` of a job whose template has such transactions. -/
def serializeBlock (transactions : List (List Char)) (header coinbase solution : Bytes) : Bytes :=
  header ++ solution ++ transactionCountBytes (UInt32.ofNat transactions.length + 1) ++ coinbase ++
    buildRawTransactionBuffer transactions

end EquihashJob

/-- A block as nodes read it: a header, a solution behind its length and the transactions behind
their number. -/
def blockFormat {α : Type} (format : ByteFormat α) : ByteFormat (Bytes × Bytes × List α) :=
  (fixed 140).pair (sized.pair (counted format))

/-! ### Decimal digits as hexadecimal ones -/

theorem hexDigit?_of_isDigit {c : Char} (h : c.isDigit) : hexDigit? c = some (c.toNat - 48) := by
  have hbounds : 48 ≤ c.toNat ∧ c.toNat ≤ 57 := Char.isDigit_iff_toNat.mp h
  rw [hexDigit?, if_pos hbounds]

theorem toLower_of_isDigit {c : Char} (h : c.isDigit) : c.toLower = c := by
  have hbounds : 48 ≤ c.toNat ∧ c.toNat ≤ 57 := Char.isDigit_iff_toNat.mp h
  apply toLower_eq_self
  omega

theorem isHexDigit_of_isDigit {s : List Char} (h : ∀ c ∈ s, c.isDigit) :
    ∀ c ∈ s, isHexDigit c := by
  intro c hc
  rw [isHexDigit, hexDigit?_of_isDigit (h c hc)]
  rfl

theorem isDigit_evenDigits {n : ℕ} : ∀ c ∈ EquihashJob.evenDigits n, c.isDigit := by
  have hdigits : ∀ c ∈ Nat.toDigits 10 n, c.isDigit := fun c hc =>
    Nat.isDigit_of_mem_toDigits (by decide) (by decide) hc
  dsimp only [EquihashJob.evenDigits]
  split
  · exact List.forall_mem_cons.mpr ⟨by decide, hdigits⟩
  · exact hdigits

theorem even_length_evenDigits (n : ℕ) : Even (EquihashJob.evenDigits n).length := by
  dsimp only [EquihashJob.evenDigits]
  rw [Nat.even_iff]
  split
  · rw [List.length_cons]
    omega
  · omega

theorem hexValue_toDigits {n : ℕ} (h : 10 ≤ n) :
    hexValue (Nat.toDigits 10 n) = 16 * hexValue (Nat.toDigits 10 (n / 10)) + n % 10 := by
  have hdigit : ∀ d < 10, (hexDigit? d.digitChar).getD 0 = d := by decide
  rw [Nat.toDigits_of_base_le (by decide) h, hexValue_concat,
    hdigit (n % 10) (Nat.mod_lt n (by decide))]

theorem hexValue_toDigits_of_lt {n : ℕ} (h : n < 10) : hexValue (Nat.toDigits 10 n) = n := by
  interval_cases n <;> decide

/-- The digits of a number are worth more as hexadecimal ones if they are several. -/
theorem le_hexValue_toDigits (n : ℕ) : n ≤ hexValue (Nat.toDigits 10 n) := by
  induction n using Nat.strong_induction_on with
  | h n ih =>
      by_cases h : n < 10
      · exact (hexValue_toDigits_of_lt h).ge
      · have hquotient := ih (n / 10) (by omega)
        rw [hexValue_toDigits (not_lt.mp h)]
        omega

theorem lt_hexValue_toDigits {n : ℕ} (h : 10 ≤ n) : n < hexValue (Nat.toDigits 10 n) := by
  have hquotient := le_hexValue_toDigits (n / 10)
  rw [hexValue_toDigits h]
  omega

theorem hexValue_cons_zero (s : List Char) : hexValue ('0' :: s) = hexValue s := rfl

theorem hexValue_evenDigits (n : ℕ) :
    hexValue (EquihashJob.evenDigits n) = hexValue (Nat.toDigits 10 n) := by
  dsimp only [EquihashJob.evenDigits]
  split
  · exact hexValue_cons_zero _
  · rfl

/-! ### Bytes of digits -/

/-- Bytes from the highest on have the value of their text. -/
theorem hexValue_toHexString_reverse (bytes : Bytes) :
    hexValue (toHexString bytes.reverse) = numberOf bytes := by
  induction bytes with
  | nil => rfl
  | cons byte bytes ih =>
      have hlast : toHexString [byte] = hexText 2 byte.toNat := List.append_nil _
      have hvalue : hexValue (hexText 2 byte.toNat) = byte.toNat :=
        hexValue_hexText 2 byte.toNat byte.toNat_lt
      have hnumber : numberOf (byte :: bytes) = byte.toNat + 256 * numberOf bytes := rfl
      rw [List.reverse_cons, toHexString_append, hlast, hexValue_append, ih, hvalue,
        length_hexText, hnumber]
      ring

/-- Digits are never the bytes of a number that they are worth more than. -/
theorem hexToByteArray_reverse_ne {s : List Char} {width n : ℕ} (hdigits : ∀ c ∈ s, c.isDigit)
    (heven : Even s.length) (hn : n < 256 ^ width) (h : n < hexValue s) :
    (hexToByteArray s).reverse ≠ bytesOf width n := by
  intro hbytes
  have hhex := isHexDigit_of_isDigit hdigits
  have hvalue : hexValue s = n := by
    calc
      hexValue s = hexValue (toHexString (hexToByteArray s)) := by
        rw [hexToByteArray_of_isHexDigit hhex, toHexString_pairBytes hhex heven,
          hexValue_ignoringCase hhex]
      _ = numberOf (hexToByteArray s).reverse := by
        rw [← hexValue_toHexString_reverse, List.reverse_reverse]
      _ = n := by
        rw [hbytes, numberOf_bytesOf hn]
  exact h.ne' hvalue

/-- A text of decimal digits has no byte of two letters. -/
theorem hexToByteArray_ne_cons {s : List Char} (hdigits : ∀ c ∈ s, c.isDigit)
    (heven : Even s.length) (rest : Bytes) : hexToByteArray s ≠ 0xff :: rest := by
  intro hbytes
  have hhex := isHexDigit_of_isDigit hdigits
  have hlower : ignoringCase s = s := by
    calc
      ignoringCase s = s.map id := List.map_congr_left fun c hc => toLower_of_isDigit (hdigits c hc)
      _ = s := List.map_id s
  have htext : s = hexText 2 255 ++ toHexString rest := by
    calc
      s = toHexString (hexToByteArray s) := by
        rw [hexToByteArray_of_isHexDigit hhex, toHexString_pairBytes hhex heven, hlower]
      _ = toHexString (0xff :: rest) := by rw [hbytes]
      _ = hexText 2 255 ++ toHexString rest := rfl
  have hletter : 'f' ∈ hexText 2 255 := by simp [hexText, hexChar]
  have hdigit := hdigits 'f' (htext ▸ List.mem_append_left _ hletter)
  exact absurd hdigit (by decide)

namespace EquihashJob

/-- Zeros in front of digits. -/
theorem padded_digits {s : List Char} (hdigits : ∀ c ∈ s, c.isDigit) (heven : Even s.length) :
    ∃ t, (if s.length = 2 then '0' :: '0' :: s else s) = t ∧ (∀ c ∈ t, c.isDigit) ∧
      Even t.length ∧ hexValue t = hexValue s := by
  refine ⟨_, rfl, ?_⟩
  split
  · have hzero : '0'.isDigit := by decide
    refine ⟨List.forall_mem_cons.mpr ⟨hzero, List.forall_mem_cons.mpr ⟨hzero, hdigits⟩⟩, ?_, rfl⟩
    exact heven.add even_two
  · exact ⟨hdigits, heven, rfl⟩

/-- No count from ten on is written as nodes read it. -/
theorem transactionCountBytes_ne {count : UInt32} (h : 10 ≤ count.toNat) :
    transactionCountBytes count ≠ writeCompactSize count.toNat := by
  have hdigits := isDigit_evenDigits (n := count.toNat)
  have heven := even_length_evenDigits count.toNat
  have hvalue : count.toNat < hexValue (evenDigits count.toNat) := by
    rw [hexValue_evenDigits]
    exact lt_hexValue_toDigits h
  intro hbytes
  by_cases hone : count ≤ 0xfc
  · have hle : count.toNat ≤ 0xfc := hone
    simp only [transactionCountBytes, if_pos hone] at hbytes
    rw [writeCompactSize, if_pos (by omega)] at hbytes
    apply hexToByteArray_reverse_ne hdigits heven (show count.toNat < 256 ^ 1 by omega) hvalue
    rw [hbytes]
    rfl
  have hgt : ¬ count.toNat ≤ 0xfc := hone
  by_cases htwo : count ≤ 0x7fff
  · have hle : count.toNat ≤ 0x7fff := htwo
    obtain ⟨t, htext, htdigits, hteven, htvalue⟩ := padded_digits hdigits heven
    simp only [transactionCountBytes, if_neg hone, if_pos htwo] at hbytes
    rw [htext, writeCompactSize, if_neg (by omega), if_pos (by omega)] at hbytes
    exact hexToByteArray_reverse_ne htdigits hteven (show count.toNat < 256 ^ 2 by omega)
      (htvalue ▸ hvalue) (List.cons.inj hbytes).2
  · simp only [transactionCountBytes, if_neg hone, if_neg htwo] at hbytes
    have hlength := congrArg List.length hbytes
    rw [writeCompactSize, List.length_nil] at hlength
    split_ifs at hlength with hbyte
    · rw [length_bytesOf] at hlength
      omega

/-- Nor is one that does not fit the counter. -/
theorem transactionCountBytes_ne_eight (count : UInt32) (n : ℕ) :
    transactionCountBytes count ≠ 0xff :: bytesOf 8 n := by
  dsimp only [transactionCountBytes]
  split
  · exact hexToByteArray_ne_cons isDigit_evenDigits (even_length_evenDigits _) _
  · split
    · intro h
      exact absurd (List.cons.inj h).1 (by decide)
    · exact (List.cons_ne_nil _ _).symm

/-- The number of transactions is written as nodes read it for at most nine of them. -/
theorem transactionCountBytes_eq_iff (n : ℕ) :
    transactionCountBytes (UInt32.ofNat n + 1) = writeCompactSize (n + 1) ↔ n ≤ 8 := by
  constructor
  · intro h
    by_contra hmany
    by_cases hlt : n + 1 < 2 ^ 32
    · have hcount : (UInt32.ofNat n + 1).toNat = n + 1 := by
        rw [UInt32.toNat_add, UInt32.toNat_ofNat', UInt32.toNat_one]
        omega
      rw [← hcount] at h
      exact transactionCountBytes_ne (by omega) h
    · rw [writeCompactSize, if_neg (by omega), if_neg (by omega), if_neg (by omega)] at h
      exact transactionCountBytes_ne_eight _ _ h
  · intro h
    interval_cases n <;> decide

end EquihashJob

/-! ### What nodes recover -/

section blocks

open EquihashJob

variable {α : Type} {format : ByteFormat α} {transactions : List (List Char)}
  {header coinbase solution : Bytes}

/-- The block is the header, the solution, the number of transactions, the coinbase and the
transactions of the template. -/
def EmitsBlock (transactions : List (List Char)) (header coinbase solution : Bytes) : Prop :=
  serializeBlock transactions header coinbase solution =
    header ++ solution ++ compactSize.write (1 + transactions.length) ++ coinbase ++
      buildRawTransactionBuffer transactions

/-- A node reads such a header and such transactions from the block, and nothing is left of it. -/
def IsRecovered (format : ByteFormat α) (block header : Bytes) (txs : List α) : Prop :=
  ∃ solution, (blockFormat format).read block = some ((header, solution, txs), [])

/-- The solution stands behind its length. -/
def HasLength (solution : Bytes) : Prop :=
  ∃ content, sized.Fits content ∧ solution = sized.write content

theorem emitsBlock_iff :
    EmitsBlock transactions header coinbase solution ↔ transactions.length ≤ 8 := by
  rw [EmitsBlock, serializeBlock, List.append_left_inj, List.append_left_inj,
    List.append_right_inj, Nat.add_comm]
  exact transactionCountBytes_eq_iff _

/-- A block of transactions is recovered just if the solution has its length in front. -/
theorem isRecovered_iff (hcanonical : format.IsCanonical) (hheader : header.length = 140)
    {txs : List α} (hfits : (counted format).Fits txs) :
    IsRecovered format (header ++ (solution ++ (counted format).write txs)) header txs ↔
      HasLength solution := by
  constructor
  · rintro ⟨content, hread⟩
    have hblock : (blockFormat format).IsCanonical :=
      (isCanonical_fixed 140).pair (isCanonical_sized.pair hcanonical.counted)
    obtain ⟨⟨-, hcontent, -⟩, hbytes⟩ := hblock hread
    have hwrite : (blockFormat format).write (header, content, txs) ++ [] =
        header ++ (sized.write content ++ (counted format).write txs) := List.append_nil _
    rw [hwrite, List.append_right_inj, List.append_left_inj] at hbytes
    exact ⟨content, hcontent, hbytes⟩
  · rintro ⟨content, hcontent, rfl⟩
    refine ⟨content, ?_⟩
    have hread := (blockFormat format).read_write (header, content, txs) []
      ⟨hheader, hcontent, hfits⟩
    rw [List.append_nil] at hread
    exact hread

/-- The block is emitted as it has to be and recovered with just its transactions for at most
eight transactions of the template behind a solution with its length. -/
theorem serializeBlock_iff (hcanonical : format.IsCanonical) {tx : α} {txs : List α}
    (hheader : header.length = 140) (hcoinbase : coinbase = format.write tx)
    (htransactions : transactions.map hexToByteArray = txs.map format.write)
    (hfits : ∀ a ∈ tx :: txs, format.Fits a) :
    EmitsBlock transactions header coinbase solution ∧
        IsRecovered format (serializeBlock transactions header coinbase solution) header
          (tx :: txs) ↔
      transactions.length ≤ 8 ∧ HasLength solution := by
  have hlength : transactions.length = txs.length := by
    have hmap := congrArg List.length htransactions
    rwa [List.length_map, List.length_map] at hmap
  have hwrite : header ++ solution ++ compactSize.write (1 + transactions.length) ++ coinbase ++
      buildRawTransactionBuffer transactions =
        header ++ (solution ++ (counted format).write (tx :: txs)) := by
    rw [buildRawTransactionBuffer, htransactions, hcoinbase, hlength, Nat.add_comm]
    simp [counted]
  have hcounted (hfew : transactions.length ≤ 8) : (counted format).Fits (tx :: txs) := by
    refine ⟨?_, hfits⟩
    rw [List.length_cons]
    omega
  constructor
  · rintro ⟨hemits, hrecovered⟩
    have hfew := emitsBlock_iff.mp hemits
    have hblock := hemits.trans hwrite
    rw [hblock] at hrecovered
    exact ⟨hfew, (isRecovered_iff hcanonical hheader (hcounted hfew)).mp hrecovered⟩
  · rintro ⟨hfew, hsolution⟩
    have hemits : EmitsBlock transactions header coinbase solution := emitsBlock_iff.mpr hfew
    have hblock := hemits.trans hwrite
    refine ⟨hemits, ?_⟩
    rw [hblock]
    exact (isRecovered_iff hcanonical hheader (hcounted hfew)).mpr hsolution

end blocks

namespace TenTransactions

def kind : TransactionKind := ⟨false, false, false⟩

def input : TransactionInput := ⟨List.replicate 32 1, 0, [0x51], 0xffffffff⟩

def output : TransactionOutput := ⟨1000, [0x51]⟩

/-- A transaction of the first version. -/
def tx : Transaction where
  version := 1
  time := none
  inputs := [input]
  outputs := [output]
  lockTime := 0
  comment := none
  payload := none

/-- The data of the transaction in a template. -/
def data : List Char := toHexString ((transactionFormat kind).write tx)

def header : Bytes := List.replicate 140 4

def solution : Bytes := sized.write (List.replicate 1344 7)

theorem fits_tx : (transactionFormat kind).Fits tx := by
  have hnumber {width n : ℕ} (h : n < 256 ^ width) : (number width).Fits n := h
  have hbyte : ([0x51] : Bytes).length < 2 ^ 64 := by decide
  have hinput : inputFormat.Fits input :=
    ⟨List.length_replicate, hnumber (by decide), hbyte, hnumber (by decide)⟩
  have houtput : outputFormat.Fits output := ⟨hnumber (by decide), hbyte⟩
  exact ⟨hnumber (by decide), ⟨rfl, by simp [tx]⟩, ⟨by decide, by simpa [tx] using hinput⟩,
    ⟨by decide, by simpa [tx] using houtput⟩, hnumber (by decide), ⟨rfl, by simp [tx]⟩, rfl,
    by simp [tx]⟩

theorem hexToByteArray_data : hexToByteArray data = (transactionFormat kind).write tx := by
  rw [data, hexToByteArray_of_isHexDigit (isHexDigit_toHexString _), pairBytes_toHexString]

end TenTransactions

open TenTransactions in
/-- Nine transactions and the coinbase are counted as sixteen. -/
theorem not_emitsBlock_ten :
    EquihashJob.transactionCountBytes 10 = compactSize.write 16 ∧
      ¬ EmitsBlock (List.replicate 9 data) header ((transactionFormat kind).write tx)
        solution := by
  refine ⟨by decide, ?_⟩
  rw [emitsBlock_iff, List.length_replicate]
  decide

open TenTransactions in
/-- Eight transactions are read back. -/
theorem isRecovered_nine :
    IsRecovered (transactionFormat kind)
      (EquihashJob.serializeBlock (List.replicate 8 data) header
        ((transactionFormat kind).write tx) solution) header (tx :: List.replicate 8 tx) := by
  have hcontent : (List.replicate 1344 (7 : UInt8)).length < 2 ^ 64 := by
    rw [List.length_replicate]
    decide
  refine ((serializeBlock_iff (isCanonical_transactionFormat kind) rfl rfl ?_ ?_).mpr
    ⟨le_rfl, List.replicate 1344 7, hcontent, rfl⟩).2
  · rw [List.map_replicate, List.map_replicate, hexToByteArray_data]
  · intro a ha
    obtain rfl | hmem := List.mem_cons.mp ha
    · exact fits_tx
    · rw [List.eq_of_mem_replicate hmem]
      exact fits_tx

end Miningcore.Equihash
