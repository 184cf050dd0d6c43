import Miningcore.Blockchain.Kaspa.KaspaBech32
import Miningcore.Foundation.ChecksumRegister

/-!
# The checksum of an address and what decoding accepts

The polynomial remainder is a register of eight symbols of five bits. The last
symbol of each generator is the bit it is for, so that the checksum of a payload
is the one that is accepted after it, and a changed symbol is noticed.
-/

namespace Miningcore.Kaspa

open Foundation

/-- The register of the polynomial remainder. -/
def polyModRegister : ChecksumRegister where
  width := 5
  tail := 7
  mix topBits := mixGenerators generator.zipIdx topBits 0
  mix_xor := mixGenerators_xor generator.zipIdx
  mix_lt topBits := mixGenerators_lt (by decide) topBits (by decide)
  eq_zero_of_mix_mod := by decide

theorem polyModStep_eq_push : polyModStep = polyModRegister.push := by
  funext checksum value
  have hlow : checksum &&& 0x07ffffffff = checksum % 2 ^ 35 :=
    Nat.and_two_pow_sub_one_eq_mod checksum 35
  rw [polyModStep, hlow]
  exact mixGenerators_eq_xor _ _ _

section symbols

variable (prefixString : List Char) (payload : List UInt8)

/-- What the checksum is over. -/
def checkedSymbols : List ℕ :=
  prefixToUint5Array prefixString ++ [0] ++ payloadToInts payload

theorem polyMod_eq (values : List ℕ) : polyMod values = polyModRegister.feed 1 values ^^^ 1 := by
  rw [polyMod, polyModStep_eq_push]
  rfl

/-- The bytes are symbols. -/
def AreSymbols (data : List UInt8) : Prop := polyModRegister.IsSymbols (payloadToInts data)

variable {payload}

theorem isSymbols_checkedSymbols (h : AreSymbols payload) :
    polyModRegister.IsSymbols (checkedSymbols prefixString payload) := by
  apply ChecksumRegister.IsSymbols.append _ h
  apply ChecksumRegister.IsSymbols.append
  · intro symbol hsymbol
    obtain ⟨c, -, rfl⟩ := List.mem_map.mp hsymbol
    exact Nat.and_lt_two_pow _ (by decide)
  · exact ChecksumRegister.isSymbols_replicate 1

variable (payload)

theorem checkedSymbols_append (data : List UInt8) : checkedSymbols prefixString (payload ++ data) =
    checkedSymbols prefixString payload ++ payloadToInts data := by
  rw [checkedSymbols, checkedSymbols, payloadToInts, List.map_append, ← List.append_assoc,
    ← payloadToInts, ← payloadToInts]

theorem verifyChecksum_iff : verifyChecksum prefixString payload = true ↔
    polyModRegister.feed 1 (checkedSymbols prefixString payload) = 1 := by
  rw [verifyChecksum, decide_eq_true_iff, polyMod_eq, ← checkedSymbols]
  constructor
  · intro h
    exact Nat.xor_left_injective (h.trans (Nat.xor_self 1).symm)
  · intro h
    rw [h, Nat.xor_self]

theorem toNat_and_31 (n : ℕ) : (n &&& 31).toUInt8.toNat = n % 2 ^ 5 := by
  have hmasked : n &&& 31 = n % 2 ^ 5 := Nat.and_two_pow_sub_one_eq_mod n 5
  have hlt : n % 2 ^ 5 < 2 ^ 8 := (Nat.mod_lt n (by decide)).trans (by decide)
  rw [hmasked]
  exact UInt8.toNat_ofNat_of_lt' hlt

/-- The checksum is the symbols that bring the register to one. -/
theorem payloadToInts_calculateChecksum :
    payloadToInts (calculateChecksum prefixString payload) =
      polyModRegister.closing (polyModRegister.feed 1 (checkedSymbols prefixString payload)) 1 := by
  rw [calculateChecksum, payloadToInts, List.map_map, polyMod_eq, ← checkedSymbols,
    ChecksumRegister.feed_append, ChecksumRegister.closing, symbolsOf]
  apply List.map_congr_left
  intro i _
  exact toNat_and_31 _

theorem length_calculateChecksum :
    (calculateChecksum prefixString payload).length = checksumLength := by
  rw [calculateChecksum, List.length_map, List.length_range]

theorem areSymbols_calculateChecksum : AreSymbols (calculateChecksum prefixString payload) := by
  rw [AreSymbols, payloadToInts_calculateChecksum]
  exact polyModRegister.isSymbols_closing _ _

variable {payload}

/-- After a payload exactly its checksum is accepted. -/
theorem verifyChecksum_append_iff (hpayload : AreSymbols payload) {checksum : List UInt8}
    (hchecksum : AreSymbols checksum) (hlength : checksum.length = checksumLength) :
    verifyChecksum prefixString (payload ++ checksum) = true ↔
      checksum = calculateChecksum prefixString payload := by
  have hregister : polyModRegister.feed 1 (checkedSymbols prefixString payload) <
      polyModRegister.size :=
    polyModRegister.feed_lt (isSymbols_checkedSymbols prefixString hpayload) (by decide)
  rw [verifyChecksum_iff, checkedSymbols_append, ChecksumRegister.feed_append]
  constructor
  · intro h
    have hclosing := polyModRegister.eq_closing
      (polyModRegister.feed 1 (checkedSymbols prefixString payload)) hchecksum
      (by rw [payloadToInts, List.length_map, hlength]; rfl)
    rw [h, ← payloadToInts_calculateChecksum] at hclosing
    exact List.map_injective_iff.mpr (fun _ _ => UInt8.toNat_inj.mp) hclosing
  · rintro rfl
    rw [payloadToInts_calculateChecksum]
    exact polyModRegister.feed_closing hregister (by decide)

/-- At most one symbol in a place is accepted. -/
theorem eq_of_verifyChecksum {symbol symbol' : UInt8} {before after : List UInt8}
    (hsymbol : symbol.toNat < 2 ^ 5) (hsymbol' : symbol'.toNat < 2 ^ 5)
    (hafter : AreSymbols after)
    (h : verifyChecksum prefixString (before ++ symbol :: after) = true)
    (h' : verifyChecksum prefixString (before ++ symbol' :: after) = true) :
    symbol = symbol' := by
  rw [verifyChecksum_iff, checkedSymbols_append] at h h'
  exact UInt8.toNat_inj.mp (polyModRegister.eq_of_feed_eq hsymbol hsymbol' hafter (h.trans h'.symm))

end symbols

/-!
## What decoding accepts

Characters and symbols correspond, the colon that matters is the last one, and
after it comes the checksum of what is before it. So in lower case an accepted
address is the one that encoding gives for its prefix and its symbols.
-/

section characters

/-- The character of a symbol. -/
def charOf (symbol : UInt8) : Char := charset.getD symbol.toNat ' '

/-- The characters one by one, which are faster to evaluate than the text. -/
theorem charset_eq : charset = ['q', 'p', 'z', 'r', 'y', '9', 'x', '8', 'g', 'f', '2', 't', 'v', 'd',
    'w', '0', 's', '3', 'j', 'n', '5', '4', 'k', 'h', 'c', 'e', '6', 'm', 'u', 'a', '7', 'l'] :=
  String.toList_ofList

theorem length_charset : charset.length = 32 := by
  rw [charset_eq]
  rfl

theorem idxOf_charset : ∀ n < 32, charset.idxOf? (charset.getD n ' ') = some n := by
  rw [charset_eq]
  decide

theorem charset_idxOf {c : Char} {index : ℕ} (h : charset.idxOf? c = some index) :
    index < 32 ∧ charset.getD index ' ' = c := by
  obtain ⟨hlt, hget, -⟩ := List.idxOf?_eq_some_iff.mp h
  exact ⟨hlt.trans_eq length_charset, (List.getElem_eq_getD ' ').symm.trans hget⟩

variable {data : List UInt8}

theorem areSymbols_cons {symbol : UInt8} :
    AreSymbols (symbol :: data) ↔ symbol.toNat < 2 ^ 5 ∧ AreSymbols data :=
  List.forall_mem_cons

theorem areSymbols_append {data' : List UInt8} :
    AreSymbols (data ++ data') ↔ AreSymbols data ∧ AreSymbols data' := by
  rw [AreSymbols, payloadToInts, List.map_append]
  exact List.forall_mem_append

/-- All symbols have a character. -/
theorem encodeToBase32_eq_map (h : AreSymbols data) : encodeToBase32 data = data.map charOf := by
  have hall : (data.mapM fun b => charset[b.toNat]?) = some (data.map charOf) := by
    induction data with
    | nil => rfl
    | cons symbol data ih =>
        obtain ⟨hsymbol, hdata⟩ := areSymbols_cons.mp h
        have hchar : charset[symbol.toNat]? = some (charOf symbol) := by
          rw [charOf, List.getElem?_eq_getElem (hsymbol.trans_eq length_charset.symm)]
          exact congrArg some (List.getElem_eq_getD ' ')
        rw [List.mapM_cons, hchar, ih hdata]
        rfl
  rw [encodeToBase32, hall]
  rfl

/-- Decoding gives the symbols whose characters the text has. -/
theorem decodeFromBase32_eq_ok_iff {text : List Char} :
    decodeFromBase32 text = .ok data ↔ AreSymbols data ∧ data.map charOf = text := by
  induction text generalizing data with
  | nil =>
      rw [List.map_eq_nil_iff]
      constructor
      · intro h
        obtain rfl := Except.ok.inj h
        exact ⟨fun _ h => absurd h List.not_mem_nil, rfl⟩
      · rintro ⟨-, rfl⟩
        rfl
  | cons c text ih =>
      rw [decodeFromBase32, List.mapM_cons, ← decodeFromBase32, List.map_eq_cons_iff]
      constructor
      · intro h
        rcases hindex : charset.idxOf? c with _ | index
        · rw [hindex] at h
          contradiction
        · rcases hrest : decodeFromBase32 text with exception | others
          · rw [hindex, hrest] at h
            contradiction
          · rw [hindex, hrest] at h
            obtain rfl := Except.ok.inj h
            obtain ⟨hlt, hchar⟩ := charset_idxOf hindex
            obtain ⟨hothers, htext⟩ := ih.mp hrest
            have htoNat : index.toUInt8.toNat = index :=
              UInt8.toNat_ofNat_of_lt' (hlt.trans (by decide))
            refine ⟨areSymbols_cons.mpr ⟨htoNat.symm ▸ hlt, hothers⟩, index.toUInt8, others, rfl,
              ?_, htext⟩
            rw [charOf, htoNat, hchar]
      · rintro ⟨hsymbols, symbol, others, rfl, rfl, rfl⟩
        obtain ⟨hsymbol, hothers⟩ := areSymbols_cons.mp hsymbols
        rw [charOf, idxOf_charset symbol.toNat hsymbol, ih.mpr ⟨hothers, rfl⟩]
        exact congrArg (fun symbol => Except.ok (symbol :: others)) UInt8.ofNat_toNat

end characters

section colon

theorem lastIndexOf_eq_none_iff {c : Char} {text : List Char} :
    lastIndexOf c text = none ↔ c ∉ text := by
  induction text with
  | nil => simp [lastIndexOf]
  | cons first text ih =>
      rw [lastIndexOf, List.mem_cons, not_or, ← ih]
      rcases lastIndexOf c text with _ | index
      · simp [eq_comm]
      · simp

theorem lastIndexOf_append (before : List Char) {c : Char} {after : List Char} (h : c ∉ after) :
    lastIndexOf c (before ++ c :: after) = some before.length := by
  induction before with
  | nil =>
      rw [List.nil_append, lastIndexOf, lastIndexOf_eq_none_iff.mpr h]
      exact if_pos rfl
  | cons first before ih =>
      rw [List.cons_append, lastIndexOf, ih]
      rfl

/-- Only the last colon is found. -/
theorem exists_of_lastIndexOf {c : Char} {text : List Char} {index : ℕ}
    (h : lastIndexOf c text = some index) :
    ∃ before after, text = before ++ c :: after ∧ c ∉ after ∧ before.length = index := by
  induction text generalizing index with
  | nil => exact absurd h (by simp [lastIndexOf])
  | cons first text ih =>
      rw [lastIndexOf] at h
      rcases hrest : lastIndexOf c text with _ | found
      · rw [hrest, Option.ite_none_right_eq_some] at h
        obtain ⟨rfl, hindex⟩ := h
        exact ⟨[], text, rfl, lastIndexOf_eq_none_iff.mp hrest, Option.some.inj hindex⟩
      · rw [hrest] at h
        obtain ⟨before, after, rfl, hafter, rfl⟩ := ih hrest
        exact ⟨first :: before, after, rfl, hafter, Option.some.inj h⟩

end colon

section addresses

variable {prefixString : List Char} {symbols : List UInt8}

/-- What follows the last colon is decoded, and its checksum is cut off. -/
theorem decodeLower_colon_iff {text : List Char} (htext : ':' ∉ text)
    {result : List Char × List UInt8} :
    decodeLower (prefixString ++ ':' :: text) = .ok result ↔
      prefixString ≠ [] ∧ checksumLength ≤ text.length ∧
      ∃ decoded, decodeFromBase32 text = .ok decoded ∧
        verifyChecksum prefixString decoded = true ∧
        result = (prefixString, decoded.take (decoded.length - checksumLength)) := by
  have hdrop : (prefixString ++ ':' :: text).drop (prefixString.length + 1) = text := by
    rw [List.drop_append, List.drop_eq_nil_of_le (Nat.le_succ _), Nat.add_sub_cancel_left]
    rfl
  have hindex : (prefixString.length < 1 ∨ (prefixString ++ ':' :: text).length <
      prefixString.length + checksumLength + 1) ↔
        ¬(prefixString ≠ [] ∧ checksumLength ≤ text.length) := by
    rw [List.length_append, List.length_cons, ← List.length_pos_iff]
    omega
  rw [decodeLower, lastIndexOf_append prefixString htext]
  dsimp only
  rw [hdrop, List.take_left' rfl, ← and_assoc]
  split_ifs with hcolon
  · simp [hindex.mp hcolon]
  · rw [hindex, not_not] at hcolon
    rcases hdecoded : decodeFromBase32 text with exception | decoded
    · simp
    · dsimp only
      split_ifs with hverified
      · constructor
        · intro h
          exact ⟨hcolon, decoded, rfl, hverified, (Except.ok.inj h).symm⟩
        · rintro ⟨-, _, hsame, -, rfl⟩
          obtain rfl := Except.ok.inj hsame
          rfl
      · refine ⟨False.elim, ?_⟩
        rintro ⟨-, _, hsame, h, -⟩
        obtain rfl := Except.ok.inj hsame
        exact absurd h hverified

theorem charOf_ne_colon (symbol : UInt8) : charOf symbol ≠ ':' := by
  rw [charOf]
  by_cases h : symbol.toNat < 32
  · have hcolon : ∀ n < 32, charset.getD n ' ' ≠ ':' := by
      rw [charset_eq]
      decide
    exact hcolon _ h
  · rw [List.getD_eq_default _ _ (length_charset.trans_le (Nat.le_of_not_lt h))]
    decide

theorem colon_notMem (data : List UInt8) : ':' ∉ data.map charOf := by
  rw [List.mem_map]
  rintro ⟨symbol, -, h⟩
  exact charOf_ne_colon symbol h

/-- In lower case, the accepted address is the one that is encoded. -/
theorem decodeLower_eq_ok_iff {encoded : List Char} :
    decodeLower encoded = .ok (prefixString, symbols) ↔
      prefixString ≠ [] ∧ AreSymbols symbols ∧ encodeInternal prefixString symbols = encoded := by
  constructor
  · intro h
    rcases hindex : lastIndexOf ':' encoded with _ | index
    · rw [decodeLower, hindex] at h
      contradiction
    · obtain ⟨before, text, rfl, htext, -⟩ := exists_of_lastIndexOf hindex
      obtain ⟨hbefore, hlength, decoded, hdecoded, hverified, hresult⟩ :=
        (decodeLower_colon_iff htext).mp h
      obtain ⟨rfl, rfl⟩ := Prod.mk.inj hresult
      obtain ⟨hsymbols, rfl⟩ := decodeFromBase32_eq_ok_iff.mp hdecoded
      rw [List.length_map] at hlength
      have hparts := List.take_append_drop (decoded.length - checksumLength) decoded
      rw [← hparts, areSymbols_append] at hsymbols
      rw [← hparts] at hverified
      have hchecksum := (verifyChecksum_append_iff prefixString hsymbols.1 hsymbols.2
        (by rw [List.length_drop]; omega)).mp hverified
      refine ⟨hbefore, hsymbols.1, ?_⟩
      rw [encodeInternal, ← hchecksum, hparts, encodeToBase32_eq_map]
      rw [← hparts]
      exact areSymbols_append.mpr hsymbols
  · rintro ⟨hbefore, hsymbols, rfl⟩
    have hchecksum := areSymbols_calculateChecksum prefixString symbols
    have hall := areSymbols_append.mpr ⟨hsymbols, hchecksum⟩
    have hlength := length_calculateChecksum prefixString symbols
    rw [encodeInternal, encodeToBase32_eq_map hall, decodeLower_colon_iff (colon_notMem _)]
    refine ⟨hbefore, ?_, _, decodeFromBase32_eq_ok_iff.mpr ⟨hall, rfl⟩,
      (verifyChecksum_append_iff prefixString hsymbols hchecksum hlength).mpr rfl, ?_⟩
    · rw [List.length_map, List.length_append, hlength]
      exact Nat.le_add_left _ _
    · rw [List.length_append, hlength, Nat.add_sub_cancel, List.take_left' rfl]

theorem length_of_decodeLower {encoded : List Char} {result : List Char × List UInt8}
    (h : decodeLower encoded = .ok result) : checksumLength + 2 ≤ encoded.length := by
  obtain ⟨hbefore, hsymbols, rfl⟩ := decodeLower_eq_ok_iff.mp h
  have hpos := List.length_pos_iff.mpr hbefore
  have hchecksum := areSymbols_calculateChecksum result.1 result.2
  rw [encodeInternal, encodeToBase32_eq_map (areSymbols_append.mpr ⟨hsymbols, hchecksum⟩),
    List.length_append, List.length_cons, List.length_map, List.length_append,
    length_calculateChecksum]
  omega

theorem decodeInternal_eq_ok_iff {encoded : List Char} {result : List Char × List UInt8} :
    decodeInternal encoded = .ok result ↔
      (∀ c ∈ encoded, isInvalid c = false) ∧
      (encoded = encoded.map Char.toLower ∨ encoded = encoded.map Char.toUpper) ∧
      decodeLower (encoded.map Char.toLower) = .ok result := by
  rw [decodeInternal]
  split_ifs with hlength
  · refine ⟨fun h => absurd h (by simp), ?_⟩
    rintro ⟨-, -, h⟩
    have hlong := length_of_decodeLower h
    rw [List.length_map] at hlong
    omega
  · rcases hfind : encoded.find? isInvalid with _ | c
    · have hvalid : ∀ c ∈ encoded, isInvalid c = false := by
        simpa using List.find?_eq_none.mp hfind
      dsimp only
      split_ifs with hcase
      · have hmixed : ¬(encoded = encoded.map Char.toLower ∨
            encoded = encoded.map Char.toUpper) := not_or.mpr hcase
        simp [hmixed]
      · have huniform : encoded = encoded.map Char.toLower ∨
            encoded = encoded.map Char.toUpper := or_iff_not_and_not.mpr hcase
        exact ⟨fun h => ⟨hvalid, huniform, h⟩, fun h => h.2.2⟩
    · refine ⟨fun h => absurd h (by simp), ?_⟩
      rintro ⟨hvalid, -, -⟩
      have hc := hvalid c (List.mem_of_find?_eq_some hfind)
      rw [List.find?_some hfind] at hc
      contradiction

end addresses

end Miningcore.Kaspa
