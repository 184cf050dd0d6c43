import Miningcore.Blockchain.Handshake.HandshakeBech32Decoder
import Miningcore.Foundation.BitGroups
import Miningcore.Foundation.ChecksumRegister

/-!
# Reference addresses and their checksum

The checksum is the remainder that a register of six symbols holds after the
expanded prefix and the symbols. Decoding keeps the same register in 32 bits. So
whatever is decoded has a prefix, a separator and symbols with the right checksum.
-/

namespace Miningcore.Handshake

open Foundation HandshakeBech32Decoder

section reference

def generators : List ℕ := [0x3b6a57b2, 0x26508e6d, 0x1ea119fa, 0x3d4233dd, 0x2a1462b3]

/-- The register of the remainder. -/
def bech32Register : ChecksumRegister where
  width := 5
  tail := 5
  mix topBits := mixGenerators generators.zipIdx topBits 0
  mix_xor := mixGenerators_xor generators.zipIdx
  mix_lt topBits := mixGenerators_lt (by decide) topBits (by decide)
  eq_zero_of_mix_mod := by decide

def charset : List Char := "qpzry9x8gf2tvdw0s3jn54khce6mua7l".toList

def charOf (symbol : ℕ) : Char := charset.getD symbol ' '

/-- The upper bits of the prefix, a zero and its lower bits. -/
def hrpExpand (hrp : List Char) : List ℕ :=
  hrp.map (·.toNat >>> 5) ++ [0] ++ hrp.map (·.toNat % 32)

/-- The symbols that complete others. -/
def createChecksum (hrp : List Char) (symbols : List ℕ) : List ℕ :=
  bech32Register.closing (bech32Register.feed 1 (hrpExpand hrp ++ symbols)) 1

/-- The version and the program as symbols. -/
def addressSymbols (version : UInt8) (program : Bytes) : List ℕ :=
  version.toNat :: groupsOf 5 (bitStream 8 (program.map UInt8.toNat))

/-- The address of a program. -/
def encode (hrp : List Char) (version : UInt8) (program : Bytes) : List Char :=
  let symbols := addressSymbols version program
  hrp ++ '1' :: (symbols ++ createChecksum hrp symbols).map charOf

/-- Prefixes are printable and written in lower case. -/
def IsPrefix (hrp : List Char) : Prop :=
  hrp ≠ [] ∧ ∀ ch ∈ hrp, 33 ≤ ch.toNat ∧ ch.toNat ≤ 126 ∧ ¬(65 ≤ ch.toNat ∧ ch.toNat ≤ 90)

/-- An address, in upper or lower case, whose last six symbols are the checksum of what is before
them. -/
def HasChecksum (addr : List Char) : Prop :=
  ∃ hrp symbols, addr.map lowerCase = hrp ++ '1' :: symbols.map charOf ∧
    bech32Register.IsSymbols symbols ∧ 6 ≤ symbols.length ∧
    bech32Register.feed 1 (hrpExpand hrp ++ symbols) = 1

end reference

section register

theorem toNat_bitMask (b i : UInt32) : ((b >>> i) &&& 1).toNat =
    (b.toNat.testBit (i.toNat % 32)).toNat := by
  rw [UInt32.toNat_and, UInt32.toNat_shiftRight, Nat.toNat_testBit]
  exact (Nat.and_one_is_mod _).trans (congrArg (· % 2) (Nat.shiftRight_eq_div_pow _ _))

/-- A generator counts if its bit is set. -/
theorem toNat_and_bitMask (generator b i : UInt32) : (generator &&& bitMask b i).toNat =
    if b.toNat.testBit (i.toNat % 32) then generator.toNat else 0 := by
  have hbit := toNat_bitMask b i
  rw [bitMask]
  cases hset : b.toNat.testBit (i.toNat % 32)
  · rw [hset] at hbit
    rw [UInt32.toNat_inj.mp (hbit.trans UInt32.toNat_zero.symm)]
    exact congrArg UInt32.toNat UInt32.and_zero
  · rw [hset] at hbit
    rw [UInt32.toNat_inj.mp (hbit.trans UInt32.toNat_one.symm)]
    exact congrArg UInt32.toNat UInt32.and_neg_one

/-- The 32 bits hold the register. -/
theorem toNat_polymod_xor (c symbol : UInt32) :
    (polymod c ^^^ symbol).toNat = bech32Register.push c.toNat symbol.toNat := by
  have hlow : c.toNat &&& 0x1ffffff = c.toNat % 2 ^ 25 :=
    Nat.and_two_pow_sub_one_eq_mod c.toNat 25
  have hshifted : (c.toNat % 2 ^ 25) <<< 5 % 2 ^ 32 = (c.toNat % 2 ^ 25) <<< 5 := by
    apply Nat.mod_eq_of_lt
    rw [Nat.shiftLeft_eq]
    omega
  have hmix (topBits : ℕ) : bech32Register.mix topBits =
      (if topBits.testBit 0 then 0x3b6a57b2 else 0) ^^^
        ((if topBits.testBit 1 then 0x26508e6d else 0) ^^^
          ((if topBits.testBit 2 then 0x1ea119fa else 0) ^^^
            ((if topBits.testBit 3 then 0x3d4233dd else 0) ^^^
              ((if topBits.testBit 4 then 0x2a1462b3 else 0) ^^^ 0)))) := by
    change mixGenerators _ topBits 0 = _
    rw [generators, List.zipIdx_cons, List.zipIdx_cons, List.zipIdx_cons, List.zipIdx_cons,
      List.zipIdx_cons, List.zipIdx_nil, mixGenerators_cons, mixGenerators_cons,
      mixGenerators_cons, mixGenerators_cons, mixGenerators_cons]
    rfl
  rw [polymod, UInt32.toNat_xor, UInt32.toNat_xor, UInt32.toNat_xor, UInt32.toNat_xor,
    UInt32.toNat_xor, UInt32.toNat_xor, toNat_and_bitMask, toNat_and_bitMask, toNat_and_bitMask,
    toNat_and_bitMask, toNat_and_bitMask, UInt32.toNat_shiftLeft, UInt32.toNat_and,
    UInt32.toNat_shiftRight, ChecksumRegister.push, hmix]
  change (c.toNat &&& 0x1ffffff) <<< 5 % 2 ^ 32 ^^^ _ ^^^ _ ^^^ _ ^^^ _ ^^^ _ ^^^ _ =
    ((c.toNat % 2 ^ 25) <<< 5 ^^^ symbol.toNat) ^^^ _
  rw [hlow, hshifted, Nat.xor_zero]
  ac_rfl

theorem toNat_foldl_polymod {α : Type} (f : α → UInt32) (values : List α) (chk : UInt32) :
    (values.foldl (fun chk value => polymod chk ^^^ f value) chk).toNat =
      bech32Register.feed chk.toNat (values.map fun value => (f value).toNat) := by
  induction values generalizing chk with
  | nil => rfl
  | cons value values ih =>
      rw [List.foldl_cons, ih, toNat_polymod_xor]
      rfl

end register


section characters

theorem toNat_lowerCase (ch : Char) : (lowerCase ch).toNat =
    if 65 ≤ ch.toNat ∧ ch.toNat ≤ 90 then ch.toNat + 32 else ch.toNat := by
  have hvalid : ∀ n < 26, (Char.ofNat (65 + n + 32)).toNat = 65 + n + 32 := by decide
  rw [lowerCase]
  split_ifs with h
  · have hch := hvalid (ch.toNat - 65) (by omega)
    rwa [Nat.add_sub_cancel' h.1] at hch
  · rfl

theorem map_lowerCase {str : List Char}
    (h : ∀ ch ∈ str, ¬(65 ≤ ch.toNat ∧ ch.toNat ≤ 90)) : str.map lowerCase = str :=
  (List.map_congr_left fun ch hch => if_neg (h ch hch)).trans (List.map_id str)

/-- The characters one by one, which are faster to evaluate than the text. -/
theorem charset_eq : charset = ['q', 'p', 'z', 'r', 'y', '9', 'x', '8', 'g', 'f', '2', 't', 'v', 'd',
    'w', '0', 's', '3', 'j', 'n', '5', '4', 'k', 'h', 'c', 'e', '6', 'm', 'u', 'a', '7', 'l'] :=
  String.toList_ofList

/-- The characters of symbols are printable, not in upper case, no separators and in the table. -/
theorem charOf_spec : ∀ symbol < (32 : ℕ), 33 ≤ (charOf symbol).toNat ∧
    (charOf symbol).toNat ≤ 126 ∧ ¬(65 ≤ (charOf symbol).toNat ∧ (charOf symbol).toNat ≤ 90) ∧
    charOf symbol ≠ '1' ∧ table.getD (charOf symbol).toNat (-1) = symbol := by
  simp only [charOf, charset_eq]
  decide

/-- What the table has are symbols, whose characters are the ones in lower case. -/
theorem table_spec : ∀ code < (128 : ℕ), table.getD code (-1) ≠ -1 →
    (table.getD code (-1)).toNat < 32 ∧
      charOf (table.getD code (-1)).toNat = lowerCase (Char.ofNat code) := by
  simp only [charOf, charset_eq]
  decide

theorem table_toNat {ch : Char} (h : table.getD ch.toNat (-1) ≠ -1) :
    (table.getD ch.toNat (-1)).toNat < 32 ∧
      charOf (table.getD ch.toNat (-1)).toNat = lowerCase ch := by
  have hcode : ch.toNat < 128 := by
    by_contra hcode
    exact h (List.getD_eq_default _ _ (not_lt.mp hcode))
  have hspec := table_spec ch.toNat hcode h
  rwa [Char.ofNat_toNat] at hspec

end characters

section prefixes

/-- The prefix is expanded in lower case, whichever case it is written in. -/
theorem toNat_prefixChecksum (hrp : List Char) : (prefixChecksum hrp).toNat =
    bech32Register.feed 1 (hrpExpand (hrp.map lowerCase)) := by
  have hupper (ch : Char) : ((lowerCase ch).toNat >>> 5).toUInt32.toNat =
      (lowerCase ch).toNat >>> 5 := by
    apply UInt32.toNat_ofNat_of_lt'
    rw [Nat.shiftRight_eq_div_pow]
    exact (Nat.div_le_self _ _).trans_lt (lowerCase ch).val.toNat_lt
  have hlower (ch : Char) : (ch.toNat &&& 0x1f).toUInt32.toNat = (lowerCase ch).toNat % 32 := by
    have hmasked : ch.toNat &&& 0x1f = ch.toNat % 32 := Nat.and_two_pow_sub_one_eq_mod ch.toNat 5
    have hsame : (lowerCase ch).toNat % 32 = ch.toNat % 32 := by
      rw [toNat_lowerCase]
      split_ifs
      · exact Nat.add_mod_right _ _
      · rfl
    rw [hmasked, hsame]
    exact UInt32.toNat_ofNat_of_lt' ((Nat.mod_lt _ (by decide)).trans (by decide))
  have hzero (c : UInt32) : (polymod c).toNat = bech32Register.feed c.toNat [0] := by
    have hpush := toNat_polymod_xor c 0
    rwa [UInt32.xor_zero] at hpush
  rw [prefixChecksum, toNat_foldl_polymod, hzero, toNat_foldl_polymod, hrpExpand,
    ChecksumRegister.feed_append, ChecksumRegister.feed_append, List.map_map, List.map_map,
    funext hupper, funext hlower]
  rfl

end prefixes

section symbols

/-- What symbols do to the checksum. -/
def feedSymbols (chk : UInt32) (symbols : List ℕ) : UInt32 :=
  symbols.foldl (fun chk symbol => polymod chk ^^^ symbol.toUInt32) chk

theorem toNat_feedSymbols {symbols : List ℕ} (h : bech32Register.IsSymbols symbols)
    (chk : UInt32) : (feedSymbols chk symbols).toNat = bech32Register.feed chk.toNat symbols := by
  rw [feedSymbols, toNat_foldl_polymod]
  congr 1
  apply (List.map_congr_left _).trans (List.map_id symbols)
  intro symbol hsymbol
  exact UInt32.toNat_ofNat_of_lt' ((h symbol hsymbol).trans (by decide))

/-- The last loop reads the symbols and keeps those before the checksum. -/
theorem readData_eq_ok {symbols : List ℕ} (h : bech32Register.IsSymbols symbols) (i : ℕ)
    (chk : UInt32) (data : Bytes) :
    readData (i + symbols.length) i chk data (symbols.map charOf) =
      .ok (feedSymbols chk symbols,
        data ++ (symbols.take (symbols.length - 6)).map Nat.toUInt8) := by
  induction symbols generalizing i chk data with
  | nil => exact congrArg (fun data => Except.ok (chk, data)) (List.append_nil data).symm
  | cons symbol symbols ih =>
      obtain ⟨hsymbol, hsymbols⟩ := List.forall_mem_cons.mp h
      obtain ⟨-, -, -, -, htable⟩ := charOf_spec symbol hsymbol
      have hlength : i + (symbol :: symbols).length = i + 1 + symbols.length := by
        rw [List.length_cons]
        omega
      have hkept : data ++ ((symbol :: symbols).take (symbols.length + 1 - 6)).map Nat.toUInt8 =
          (if i < i + 1 + symbols.length - 6 then data ++ [symbol.toUInt8] else data) ++
            (symbols.take (symbols.length - 6)).map Nat.toUInt8 := by
        split_ifs with hi
        · rw [show symbols.length + 1 - 6 = symbols.length - 6 + 1 by omega, List.take_succ_cons,
            List.map_cons, List.append_assoc, List.singleton_append]
        · rw [show symbols.length + 1 - 6 = 0 by omega, show symbols.length - 6 = 0 by omega]
          rfl
      rw [List.map_cons, readData, htable, if_neg (by omega), hlength, Int.toNat_natCast,
        ih hsymbols, List.length_cons, hkept]
      rfl

/-- Only symbols are read. -/
theorem exists_of_readData {length i : ℕ} {chk : UInt32} {data : Bytes} {rest : List Char}
    {result : UInt32 × Bytes} (h : readData length i chk data rest = .ok result) :
    ∃ symbols, bech32Register.IsSymbols symbols ∧ rest.map lowerCase = symbols.map charOf ∧
      result.1 = feedSymbols chk symbols := by
  induction rest generalizing i chk data with
  | nil =>
      obtain rfl := Except.ok.inj h
      exact ⟨[], fun _ h => absurd h List.not_mem_nil, rfl, rfl⟩
  | cons ch rest ih =>
      rw [readData] at h
      by_cases hinvalid : table.getD ch.toNat (-1) = -1
      · rw [if_pos hinvalid] at h
        contradiction
      · rw [if_neg hinvalid] at h
        obtain ⟨hlt, hchar⟩ := table_toNat hinvalid
        obtain ⟨symbols, hsymbols, hrest, hresult⟩ := ih h
        refine ⟨_ :: symbols, List.forall_mem_cons.mpr ⟨hlt, hsymbols⟩, ?_, hresult⟩
        rw [List.map_cons, List.map_cons, hchar, hrest]

end symbols

section scanning

theorem hlen_scanChar (state : Scan) (i : ℕ) (ch : Char) :
    (scanChar state i ch).hlen = if ch = '1' then i else state.hlen := by
  by_cases hone : ch = '1'
  · rw [if_pos hone, hone]
    rfl
  · have hcode : ch.toNat ≠ 49 := fun hcode =>
      hone ((Char.ofNat_toNat ch).symm.trans (congrArg Char.ofNat hcode))
    rw [if_neg hone, scanChar, if_neg hcode]
    split_ifs <;> rfl

/-- Printable characters, none of them in upper case, are scanned without an exception. -/
theorem exists_scan_eq {str : List Char}
    (h : ∀ ch ∈ str, 33 ≤ ch.toNat ∧ ch.toNat ≤ 126 ∧ ¬(65 ≤ ch.toNat ∧ ch.toNat ≤ 90))
    (state : Scan) (i : ℕ) : ∃ state', scan state i str = .ok state' ∧
      state'.upper = state.upper ∧ ('1' ∉ str → state'.hlen = state.hlen) := by
  induction str generalizing state i with
  | nil => exact ⟨state, rfl, rfl, fun _ => rfl⟩
  | cons ch str ih =>
      obtain ⟨⟨hlow, hhigh, hupper⟩, hstr⟩ := List.forall_mem_cons.mp h
      obtain ⟨state', hscan, hsame, hhlen⟩ := ih hstr (scanChar state i ch) (i + 1)
      refine ⟨state', ?_, hsame.trans ?_, ?_⟩
      · rw [scan, if_neg (by omega), hscan]
      · rw [scanChar, if_neg hupper]
        split_ifs <;> rfl
      · intro hone
        rw [List.mem_cons, not_or, eq_comm] at hone
        rw [hhlen hone.2, hlen_scanChar, if_neg hone.1]

theorem scan_append {state state' : Scan} {i : ℕ} {str : List Char}
    (h : scan state i str = .ok state') (rest : List Char) :
    scan state i (str ++ rest) = scan state' (i + str.length) rest := by
  induction str generalizing state i with
  | nil => exact congrArg (scan · i rest) (Except.ok.inj h)
  | cons ch str ih =>
      rw [scan] at h
      rw [List.cons_append, scan]
      split_ifs at h ⊢
      rw [ih h, List.length_cons, Nat.add_right_comm, Nat.add_assoc]

/-- What is found after the start is a separator. -/
theorem hlen_of_scan {state state' : Scan} {i : ℕ} {str : List Char}
    (h : scan state i str = .ok state') : state'.hlen = state.hlen ∨
      ∃ before after, str = before ++ '1' :: after ∧ state'.hlen = i + before.length := by
  induction str generalizing state i with
  | nil => exact .inl (congrArg Scan.hlen (Except.ok.inj h)).symm
  | cons ch str ih =>
      rw [scan] at h
      split_ifs at h
      obtain hsame | ⟨before, after, rfl, hhlen⟩ := ih h
      · rw [hlen_scanChar] at hsame
        split_ifs at hsame with hone
        · exact .inr ⟨[], str, congrArg (· :: str) hone, hsame⟩
        · exact .inl hsame
      · exact .inr ⟨ch :: before, after, rfl, by rw [hhlen, List.length_cons]; omega⟩

end scanning

section deserialize

variable {hrp : List Char} {symbols : List ℕ}

/-- Symbols with their checksum are read back without it. -/
theorem deserialize_eq_ok (hhrp : IsPrefix hrp) (h : bech32Register.IsSymbols symbols)
    (hchecksum : 6 ≤ symbols.length) (hlength : hrp.length + 1 + symbols.length ≤ 90)
    (hfeed : bech32Register.feed 1 (hrpExpand hrp ++ symbols) = 1) :
    deserialize 1 (hrp ++ '1' :: symbols.map charOf) =
      .ok (hrp, (symbols.take (symbols.length - 6)).map Nat.toUInt8) := by
  obtain ⟨hne, hchars⟩ := hhrp
  have hpos := List.length_pos_iff.mpr hne
  have hlower := map_lowerCase fun ch hch => (hchars ch hch).2.2
  have hdata : ∀ ch ∈ symbols.map charOf, 33 ≤ ch.toNat ∧ ch.toNat ≤ 126 ∧
      ¬(65 ≤ ch.toNat ∧ ch.toNat ≤ 90) := by
    intro ch hch
    obtain ⟨symbol, hsymbol, rfl⟩ := List.mem_map.mp hch
    obtain ⟨hlow, hhigh, hupper, -⟩ := charOf_spec symbol (h symbol hsymbol)
    exact ⟨hlow, hhigh, hupper⟩
  have hone : '1' ∉ symbols.map charOf := by
    intro hmem
    obtain ⟨symbol, hsymbol, hchar⟩ := List.mem_map.mp hmem
    exact (charOf_spec symbol (h symbol hsymbol)).2.2.2.1 hchar
  have htotal : (hrp ++ '1' :: symbols.map charOf).length = hrp.length + 1 + symbols.length := by
    rw [List.length_append, List.length_cons, List.length_map]
    omega
  obtain ⟨before, hbefore, hcase, -⟩ := exists_scan_eq hchars {} 0
  obtain ⟨state, hstate, hcase', hhlen⟩ := exists_scan_eq hdata
    (scanChar before (0 + hrp.length) '1') (0 + hrp.length + 1)
  have hscan : scan {} 0 (hrp ++ '1' :: symbols.map charOf) = .ok state := by
    rw [scan_append hbefore, scan, if_neg (by decide), hstate]
  have hupper : state.upper = false := hcase'.trans hcase
  have hfound : state.hlen = hrp.length := by
    rw [hhlen hone, hlen_scanChar, if_pos rfl, Nat.zero_add]
  have hsum : feedSymbols (prefixChecksum hrp) symbols = 1 := by
    apply UInt32.toNat_inj.mp
    rw [toNat_feedSymbols h, toNat_prefixChecksum, hlower, ← ChecksumRegister.feed_append, hfeed]
    rfl
  have hdrop : (hrp ++ '1' :: symbols.map charOf).drop (hrp.length + 1) =
      symbols.map charOf := by
    rw [List.drop_append, List.drop_eq_nil_of_le (Nat.le_succ _), Nat.add_sub_cancel_left]
    rfl
  rw [deserialize, htotal, if_neg (by omega), hscan]
  dsimp only
  rw [hfound, hupper, Bool.and_false, if_neg (by omega), if_neg (by omega),
    if_neg Bool.false_ne_true, List.take_left, hdrop, readData_eq_ok h, List.nil_append]
  dsimp only
  rw [if_neg (not_not.mpr hsum), hlower]

theorem hasChecksum_of_deserialize {str : List Char} {result : List Char × Bytes}
    (h : deserialize 1 str = .ok result) : HasChecksum str := by
  rcases hscan : scan {} 0 str with message | state
  · rw [deserialize, hscan] at h
    split_ifs at h
  · rw [deserialize, hscan] at h
    dsimp only at h
    split_ifs at h with _ hnone hshort
    obtain hhlen | ⟨hrp, after, rfl, hhlen⟩ := hlen_of_scan hscan
    · exact absurd hhlen hnone
    · have hdrop : (hrp ++ '1' :: after).drop (state.hlen + 1) = after := by
        rw [hhlen, Nat.zero_add, List.drop_append, List.drop_eq_nil_of_le (Nat.le_succ _),
          Nat.add_sub_cancel_left]
        rfl
      rw [hdrop, hhlen, Nat.zero_add, List.take_left] at h
      rcases hread : readData (hrp ++ '1' :: after).length (hrp.length + 1)
          (prefixChecksum hrp) [] after with message | ⟨chk, data⟩
      · rw [hread] at h
        contradiction
      · rw [hread] at h
        dsimp only at h
        split_ifs at h with hsum
        obtain ⟨symbols, hsymbols, hafter, hchk⟩ := exists_of_readData hread
        rw [not_not] at hsum
        have hlength := congrArg List.length hafter
        rw [List.length_map, List.length_map] at hlength
        rw [hhlen, List.length_append, List.length_cons, hlength] at hshort
        refine ⟨hrp.map lowerCase, symbols, ?_, hsymbols, by omega, ?_⟩
        · rw [List.map_append, List.map_cons, hafter]
          rfl
        · rw [ChecksumRegister.feed_append, ← toNat_prefixChecksum, ← toNat_feedSymbols hsymbols,
            ← hchk, hsum]
          rfl

end deserialize

end Miningcore.Handshake
