import Miningcore.Foundation.HexDigits
import Miningcore.Blockchain.Kaspa.AddressDecoding
import Miningcore.Blockchain.Kaspa.KaspaBech32

/-!
# Encoded addresses and the accepted ones

The zeros that fill the last group of five bits are fewer than a byte, so that
the bytes come back. The prefix comes back when decoding lets it pass.
-/

namespace Miningcore.Kaspa

open Foundation

theorem areSymbols_convertBits (data : List UInt8) :
    AreSymbols (convertBits data eightToFiveBits) :=
  (convertBits_eightToFiveBits data).1

/-- Groups of eight bits are regrouped and come back. -/
theorem convertBits_convertBits (data : List UInt8) :
    convertBits (convertBits data eightToFiveBits) fiveToEightBits = data := by
  obtain ⟨-, count, hcount, hpadded⟩ := convertBits_eightToFiveBits data
  obtain ⟨hvalid, hdropped⟩ :=
    convertBits_fiveToEightBits (convertBits data eightToFiveBits)
  rw [hpadded] at hdropped
  have hbytes (bytes : List UInt8) : ∀ n ∈ bytes.map UInt8.toNat, n < 2 ^ 8 := by
    intro n hn
    obtain ⟨b, -, rfl⟩ := List.mem_map.mp hn
    exact b.toNat_lt
  obtain ⟨heq, -⟩ := bitStream_split (hbytes _) (hbytes _)
    ((length_bits _ _).trans_lt hvalid.filled) ((List.length_replicate).trans_lt (by omega))
    hdropped
  exact List.map_injective_iff.mpr (fun _ _ => UInt8.toNat_inj.mp) heq

section characters

theorem charset_spec : ∀ n < 32, (charset.getD n ' ').toLower = charset.getD n ' ' ∧
    isInvalid (charset.getD n ' ') = false := by
  rw [charset_eq]
  decide

theorem toLower_charOf {symbol : UInt8} (h : symbol.toNat < 2 ^ 5) :
    (charOf symbol).toLower = charOf symbol :=
  (charset_spec _ h).1

theorem isInvalid_charOf {symbol : UInt8} (h : symbol.toNat < 2 ^ 5) :
    isInvalid (charOf symbol) = false :=
  (charset_spec _ h).2

variable {prefixString : List Char} {symbols : List UInt8}

theorem encodeInternal_eq (h : AreSymbols symbols) : encodeInternal prefixString symbols =
    prefixString ++ ':' :: (symbols ++ calculateChecksum prefixString symbols).map charOf := by
  rw [encodeInternal, encodeToBase32_eq_map
    (areSymbols_append.mpr ⟨h, areSymbols_calculateChecksum prefixString symbols⟩)]

theorem forall_charOf {data : List UInt8} (h : AreSymbols data) {p : Char → Prop}
    (hp : ∀ {symbol : UInt8}, symbol.toNat < 2 ^ 5 → p (charOf symbol)) :
    ∀ c ∈ data.map charOf, p c := by
  intro c hc
  obtain ⟨symbol, hsymbol, rfl⟩ := List.mem_map.mp hc
  exact hp (h _ (List.mem_map_of_mem hsymbol))

/-- An address is in the case of its prefix. -/
theorem toLower_encodeInternal (h : AreSymbols symbols)
    (hlower : prefixString.map Char.toLower = prefixString) :
    (encodeInternal prefixString symbols).map Char.toLower =
      encodeInternal prefixString symbols := by
  have hall := areSymbols_append.mpr ⟨h, areSymbols_calculateChecksum prefixString symbols⟩
  rw [encodeInternal_eq h, List.map_append, List.map_cons, hlower]
  congr 2
  exact (List.map_congr_left (forall_charOf hall toLower_charOf)).trans (List.map_id _)

/-- The characters of an address can be printed when those of its prefix can. -/
theorem isInvalid_encodeInternal (h : AreSymbols symbols) :
    (∀ c ∈ encodeInternal prefixString symbols, isInvalid c = false) ↔
      ∀ c ∈ prefixString, isInvalid c = false := by
  have hall := areSymbols_append.mpr ⟨h, areSymbols_calculateChecksum prefixString symbols⟩
  rw [encodeInternal_eq h, List.forall_mem_append, List.forall_mem_cons]
  exact and_iff_left ⟨rfl, forall_charOf hall isInvalid_charOf⟩

/-- Whatever is decoded from an address, its prefix is not empty and can be printed. -/
theorem present_of_decodeInternal_encodeInternal (h : AreSymbols symbols)
    (hlower : prefixString.map Char.toLower = prefixString) {result : List Char × List UInt8}
    (hresult : decodeInternal (encodeInternal prefixString symbols) = .ok result) :
    prefixString ≠ [] ∧ ∀ c ∈ prefixString, isInvalid c = false := by
  obtain ⟨hvalid, -, hdecoded⟩ := decodeInternal_eq_ok_iff.mp hresult
  rw [toLower_encodeInternal h hlower, encodeInternal_eq h] at hdecoded
  exact ⟨((decodeLower_colon_iff (colon_notMem _)).mp hdecoded).1,
    (isInvalid_encodeInternal h).mp hvalid⟩

/-- The symbols of an address are decoded when its prefix is lower case, is not empty and can be
printed. -/
theorem decodeInternal_encodeInternal_iff (h : AreSymbols symbols)
    (hlower : prefixString.map Char.toLower = prefixString) :
    decodeInternal (encodeInternal prefixString symbols) = .ok (prefixString, symbols) ↔
      prefixString ≠ [] ∧ ∀ c ∈ prefixString, isInvalid c = false := by
  rw [decodeInternal_eq_ok_iff, toLower_encodeInternal h hlower, isInvalid_encodeInternal h,
    decodeLower_eq_ok_iff]
  constructor
  · rintro ⟨hvalid, -, hpresent, -⟩
    exact ⟨hpresent, hvalid⟩
  · rintro ⟨hpresent, hvalid⟩
    exact ⟨hvalid, Or.inl rfl, hpresent, h, rfl⟩

end characters

section bytes

variable {encoded prefixString : List Char} {payload : List UInt8} {version : UInt8}

theorem decode_eq_ok_iff : decode encoded = .ok (prefixString, payload, version) ↔
    ∃ symbols, decodeInternal encoded = .ok (prefixString, symbols) ∧
      convertBits symbols fiveToEightBits = version :: payload := by
  rw [decode]
  rcases decodeInternal encoded with exception | ⟨decodedPrefix, decoded⟩
  · simp
  · dsimp only
    rcases hbytes : convertBits decoded fiveToEightBits with _ | ⟨first, rest⟩
    · refine ⟨fun h => absurd h (by simp), ?_⟩
      rintro ⟨symbols, hsame, hconverted⟩
      obtain ⟨-, rfl⟩ := Prod.mk.inj (Except.ok.inj hsame)
      rw [hbytes] at hconverted
      contradiction
    · constructor
      · intro h
        obtain ⟨rfl, hrest⟩ := Prod.mk.inj (Except.ok.inj h)
        obtain ⟨rfl, rfl⟩ := Prod.mk.inj hrest
        exact ⟨decoded, rfl, hbytes⟩
      · rintro ⟨symbols, hsame, hconverted⟩
        obtain ⟨rfl, rfl⟩ := Prod.mk.inj (Except.ok.inj hsame)
        rw [hbytes] at hconverted
        obtain ⟨rfl, rfl⟩ := List.cons.inj hconverted
        rfl

theorem decodeInternal_of_decode {result : List Char × List UInt8 × UInt8}
    (h : decode encoded = .ok result) : ∃ decoded, decodeInternal encoded = .ok decoded := by
  obtain ⟨symbols, hdecoded, -⟩ := decode_eq_ok_iff.mp h
  exact ⟨_, hdecoded⟩

/-- Decoding gives back what was encoded after a prefix in lower case, exactly when the prefix is
not empty and can be printed, and refuses every other prefix. -/
theorem decode_encode_iff (hlower : prefixString.map Char.toLower = prefixString) :
    (decode (encode prefixString payload version) = .ok (prefixString, payload, version) ↔
      prefixString ≠ [] ∧ ∀ c ∈ prefixString, isInvalid c = false) ∧
    ((∃ exception, decode (encode prefixString payload version) = .error exception) ↔
      ¬ (prefixString ≠ [] ∧ ∀ c ∈ prefixString, isInvalid c = false)) := by
  have hsymbols := areSymbols_convertBits (version :: payload)
  have hpresent {result} (h : decode (encode prefixString payload version) = .ok result) :
      prefixString ≠ [] ∧ ∀ c ∈ prefixString, isInvalid c = false := by
    obtain ⟨decoded, hdecoded⟩ := decodeInternal_of_decode h
    exact present_of_decodeInternal_encodeInternal hsymbols hlower hdecoded
  have hreturns (h : prefixString ≠ [] ∧ ∀ c ∈ prefixString, isInvalid c = false) :
      decode (encode prefixString payload version) = .ok (prefixString, payload, version) :=
    decode_eq_ok_iff.mpr ⟨_, (decodeInternal_encodeInternal_iff hsymbols hlower).mpr h,
      convertBits_convertBits _⟩
  refine ⟨⟨hpresent, hreturns⟩, ?_⟩
  constructor
  · rintro ⟨exception, hrefused⟩ h
    rw [hreturns h] at hrefused
    cases hrefused
  · intro h
    cases hresult : decode (encode prefixString payload version) with
    | error exception => exact ⟨exception, rfl⟩
    | ok result => exact absurd (hpresent hresult) h

theorem decode_encode_mainnet :
    decode (encode "kaspa".toList [1, 2, 3] 0) = .ok ("kaspa".toList, [1, 2, 3], 0) := by
  have hprinted : ("kaspa".toList.all fun c => !isInvalid c) = true := by decide
  refine (decode_encode_iff (by decide)).1.mpr ⟨by decide, ?_⟩
  simpa using hprinted

/-- No character, and a character that is not printed, are refused as a prefix. -/
theorem decode_encode_refused :
    (([] : List Char).map Char.toLower = [] ∧ ':' ∉ ([] : List Char) ∧
      decode (encode [] [] 0) = .error .colonIndex) ∧
    ([' '].map Char.toLower = [' '] ∧ ':' ∉ [' '] ∧
      decode (encode [' '] [] 0) = .error (.character ' ')) := by
  refine ⟨⟨rfl, by decide, ?_⟩, ⟨rfl, by decide, ?_⟩⟩
  · rfl
  · rfl

end bytes

/-!
## Which addresses are the encoded ones

Decoding drops the bits that are left of the last group, whatever they are and
even if they are a whole group. An accepted address is the encoded one when these
bits are the ones that encoding puts there. The checksum notices any one symbol
that is changed.
-/

/-- What is dropped is less than a group of five bits, and zero. -/
def DropsPadding (symbols : List UInt8) : Prop :=
  (regroup fiveToEightBits symbols).nextByte = 0 ∧
    (regroup fiveToEightBits symbols).filledBits < 5

/-- The symbols of an address are decoded, and only padding is dropped from them. -/
def IsCanonical (encoded : List Char) : Prop :=
  ∃ prefixString symbols, decodeInternal encoded = .ok (prefixString, symbols) ∧
    DropsPadding symbols

section symbols

variable {symbols : List UInt8}

theorem convertBits_convertBits_iff (h : AreSymbols symbols) :
    convertBits (convertBits symbols fiveToEightBits) eightToFiveBits = symbols ↔
      DropsPadding symbols := by
  obtain ⟨hvalid, hdropped⟩ := convertBits_fiveToEightBits symbols
  obtain ⟨hgroups, count, hcount, hpadded⟩ :=
    convertBits_eightToFiveBits (convertBits symbols fiveToEightBits)
  rw [DropsPadding]
  constructor
  · intro hsame
    rw [hsame] at hpadded
    have hzeros := List.append_cancel_left (hdropped.trans hpadded)
    have hlength := congrArg List.length hzeros
    rw [length_bits, List.length_replicate] at hlength
    rw [← hlength, bits_eq_replicate_iff hvalid.nextByte] at hzeros
    exact ⟨UInt8.toNat_inj.mp hzeros, by omega⟩
  · rintro ⟨hzero, hfew⟩
    rw [hzero, UInt8.toNat_zero, bits_zero] at hdropped
    have hlength := congrArg List.length hdropped
    have hlength' := congrArg List.length hpadded
    rw [List.length_append, length_bitStream, length_bitStream, List.length_replicate,
      List.length_map, List.length_map] at hlength hlength'
    have hfilled : (regroup fiveToEightBits symbols).filledBits = count := by omega
    rw [hfilled, ← hpadded] at hdropped
    apply List.map_injective_iff.mpr (fun _ _ => UInt8.toNat_inj.mp)
    exact bitStream_injective hgroups h (by rw [List.length_map, List.length_map]; omega) hdropped

end symbols

section texts

variable {prefixString : List Char} {symbols : List UInt8}

theorem eq_colon_of_toLower {c : Char} (h : c.toLower = ':') : c = ':' := by
  apply @of_toLower (· = ':') c _ h
  intro n hlow hhigh
  interval_cases n <;> decide

theorem colon_notMem_toLower {text : List Char} (h : ':' ∉ text) :
    ':' ∉ text.map Char.toLower := by
  rw [List.mem_map]
  rintro ⟨c, hc, hlower⟩
  rw [eq_colon_of_toLower hlower] at hc
  exact h hc

theorem map_charOf_injective {data data' : List UInt8} (h : AreSymbols data)
    (h' : AreSymbols data') (hsame : data.map charOf = data'.map charOf) : data = data' := by
  have hdecoded := decodeFromBase32_eq_ok_iff.mpr ⟨h, hsame⟩
  rw [decodeFromBase32_eq_ok_iff.mpr ⟨h', rfl⟩] at hdecoded
  exact (Except.ok.inj hdecoded).symm

/-- What follows the last colon has it before. -/
theorem exists_text_of_append {before after text : List Char} {c : Char}
    (h : before ++ c :: after = prefixString ++ ':' :: text) (hafter : ':' ∉ c :: after) :
    ∃ start, before = prefixString ++ ':' :: start ∧ text = start ++ c :: after := by
  rcases List.append_eq_append_iff.mp h with ⟨rest, -, hrest⟩ | ⟨rest, hbefore, hrest⟩
  · rw [hrest] at hafter
    exact absurd (List.mem_append_right _ List.mem_cons_self) hafter
  · rcases List.cons_eq_append_iff.mp hrest with ⟨-, hsame⟩ | ⟨start, hstart, htext⟩
    · rw [hsame] at hafter
      exact absurd List.mem_cons_self hafter
    · exact ⟨start, hstart ▸ hbefore, htext⟩

/-- Two characters in one place after the colon are not both accepted. -/
theorem eq_of_decodeLower {start after : List Char} {c c' : Char}
    {result result' : List Char × List UInt8} (hcolon : ':' ∉ start ++ c :: after)
    (hcolon' : ':' ∉ start ++ c' :: after)
    (h : decodeLower (prefixString ++ ':' :: (start ++ c :: after)) = .ok result)
    (h' : decodeLower (prefixString ++ ':' :: (start ++ c' :: after)) = .ok result') : c = c' := by
  obtain ⟨-, -, decoded, hdecoded, hverified, -⟩ := (decodeLower_colon_iff hcolon).mp h
  obtain ⟨-, -, decoded', hdecoded', hverified', -⟩ := (decodeLower_colon_iff hcolon').mp h'
  obtain ⟨hsymbols, htext⟩ := decodeFromBase32_eq_ok_iff.mp hdecoded
  obtain ⟨hsymbols', htext'⟩ := decodeFromBase32_eq_ok_iff.mp hdecoded'
  obtain ⟨first, rest, rfl, hfirst, hrest⟩ := List.map_eq_append_iff.mp htext
  obtain ⟨first', rest', rfl, hfirst', hrest'⟩ := List.map_eq_append_iff.mp htext'
  obtain ⟨symbol, last, rfl, rfl, hlast⟩ := List.map_eq_cons_iff.mp hrest
  obtain ⟨symbol', last', rfl, rfl, hlast'⟩ := List.map_eq_cons_iff.mp hrest'
  rw [areSymbols_append, areSymbols_cons] at hsymbols hsymbols'
  rw [map_charOf_injective hsymbols'.1 hsymbols.1 (hfirst'.trans hfirst.symm),
    map_charOf_injective hsymbols'.2.2 hsymbols.2.2 (hlast'.trans hlast.symm)] at hverified'
  exact congrArg charOf (eq_of_verifyChecksum prefixString hsymbols.2.1 hsymbols'.2.1
    hsymbols.2.2 hverified hverified')

end texts

section addresses

variable {encoded prefixString : List Char} {payload : List UInt8} {version : UInt8}

theorem encode_decode_iff (h : decode encoded = .ok (prefixString, payload, version)) :
    encode prefixString payload version = encoded.map Char.toLower ↔ IsCanonical encoded := by
  obtain ⟨symbols, hdecoded, hbytes⟩ := decode_eq_ok_iff.mp h
  obtain ⟨-, -, hlowered⟩ := decodeInternal_eq_ok_iff.mp hdecoded
  obtain ⟨hpresent, hsymbols, hencoded⟩ := decodeLower_eq_ok_iff.mp hlowered
  have hcanonical : IsCanonical encoded ↔ DropsPadding symbols := by
    constructor
    · rintro ⟨_, _, hdecoded', hpadding⟩
      rw [hdecoded] at hdecoded'
      obtain ⟨-, rfl⟩ := Prod.mk.inj (Except.ok.inj hdecoded')
      exact hpadding
    · intro hpadding
      exact ⟨prefixString, symbols, hdecoded, hpadding⟩
  rw [hcanonical, ← convertBits_convertBits_iff hsymbols, hbytes, encode]
  constructor
  · intro hsame
    have hsymbols' := areSymbols_convertBits (version :: payload)
    have hlowered' := decodeLower_eq_ok_iff.mpr ⟨hpresent, hsymbols', hsame⟩
    rw [hlowered] at hlowered'
    exact (Prod.mk.inj (Except.ok.inj hlowered')).2.symm
  · intro hsame
    rw [hsame, hencoded]

theorem charset_chars {c : Char} (h : c ∈ charset) : c.toLower = c ∧ c ≠ ':' := by
  have hall : (charset.all fun c => c.toLower == c && c != ':') = true := by
    rw [charset_eq]
    decide
  simpa using List.all_eq_true.mp hall c h

/-- After the colon, no character can be changed to another of the charset. -/
theorem eq_of_decodeInternal {before after : List Char} {c c' : Char}
    {result result' : List Char × List UInt8} (hcolon : ':' ∉ c :: after) (hcharset : c' ∈ charset)
    (h : decodeInternal (before ++ c :: after) = .ok result)
    (h' : decodeInternal (before ++ c' :: after) = .ok result') : c' = c.toLower := by
  obtain ⟨-, -, hlowered⟩ := decodeInternal_eq_ok_iff.mp h
  obtain ⟨-, -, hlowered'⟩ := decodeInternal_eq_ok_iff.mp h'
  obtain ⟨hlower, hnotcolon⟩ := charset_chars hcharset
  have hcolon' := colon_notMem_toLower hcolon
  rw [List.map_append, List.map_cons] at hlowered hlowered'
  rw [List.map_cons] at hcolon'
  obtain ⟨-, hsymbols, hencoded⟩ := decodeLower_eq_ok_iff.mp hlowered
  rw [encodeInternal_eq hsymbols] at hencoded
  obtain ⟨start, hbefore, htext⟩ := exists_text_of_append hencoded.symm hcolon'
  have hnocolon := colon_notMem (result.2 ++ calculateChecksum result.1 result.2)
  rw [htext] at hnocolon
  have hnocolon' : ':' ∉ start ++ c' :: after.map Char.toLower := by
    simp only [List.mem_append, List.mem_cons, not_or] at hnocolon ⊢
    exact ⟨hnocolon.1, hnotcolon.symm, hnocolon.2.2⟩
  rw [hbefore, List.append_assoc, List.cons_append] at hlowered hlowered'
  rw [hlower] at hlowered'
  exact (eq_of_decodeLower hnocolon hnocolon' hlowered hlowered').symm

/-- An accepted address is in lower case the encoded one when only padding is dropped, so that such
addresses with equal values are equal, and after the colon no character of it can be changed to
another one of the charset. -/
theorem decode_canonical (h : decode encoded = .ok (prefixString, payload, version)) :
    (encode prefixString payload version = encoded.map Char.toLower ↔ IsCanonical encoded) ∧
    (∀ encoded', decode encoded' = .ok (prefixString, payload, version) →
      IsCanonical encoded → IsCanonical encoded' →
      encoded.map Char.toLower = encoded'.map Char.toLower) ∧
    ∀ before c after c', encoded = before ++ c :: after → ':' ∉ c :: after → c' ∈ charset →
      c' ≠ c.toLower → ∀ result, decode (before ++ c' :: after) ≠ .ok result := by
  refine ⟨encode_decode_iff h, ?_, ?_⟩
  · intro encoded' h' hcanonical hcanonical'
    exact ((encode_decode_iff h).mpr hcanonical).symm.trans ((encode_decode_iff h').mpr hcanonical')
  · rintro before c after c' rfl hcolon hcharset hchanged ⟨prefixString', payload', version'⟩ h'
    obtain ⟨symbols, hdecoded, -⟩ := decode_eq_ok_iff.mp h
    obtain ⟨symbols', hdecoded', -⟩ := decode_eq_ok_iff.mp h'
    exact hchanged (eq_of_decodeInternal hcolon hcharset hdecoded hdecoded')

theorem decode_canonical_version :
    (encode ['a'] [] 0 = "a:qqeq69uvrh".toList.map Char.toLower ↔
      IsCanonical "a:qqeq69uvrh".toList) ∧
    ∀ result, decode "a:qqeq69uvrx".toList ≠ .ok result := by
  have h : decode "a:qqeq69uvrh".toList = .ok (['a'], [], 0) := by rfl
  exact ⟨(decode_canonical h).1, (decode_canonical h).2.2 "a:qqeq69uvr".toList 'h' [] 'x' rfl
    (by decide) (by decide) (by decide)⟩

/-- A one among the bits that are dropped is not encoded again. Where no other letter is, an upper
case one may be changed to lower case. -/
theorem not_canonical :
    (decode "a:qp2rrw90sk".toList = .ok (['a'], [], 0) ∧
      encode ['a'] [] 0 ≠ "a:qp2rrw90sk".toList.map Char.toLower) ∧
    (decode "1:08537L392397".toList = .ok (['1'], [233], 121) ∧
      'l' ∈ charset ∧ decode "1:08537l392397".toList = .ok (['1'], [233], 121)) := by
  refine ⟨⟨rfl, by decide⟩, rfl, by decide, rfl⟩

end addresses

end Miningcore.Kaspa
