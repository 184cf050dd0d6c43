import Miningcore.Blockchain.Cryptonote.Base58

/-!
# Cryptonote addresses

An address is a prefix in groups of seven bits, the keys and a checksum, in base58. The pool
accepts an address by its prefix. Each prefix with keys has one text that is accepted.

## Implementation notes

The hash function and the test of keys are parameters. An address is its UTF-8 bytes.

## Main results

* `decodeAddr_iff`
* `validateAddress_iff`
-/

namespace Miningcore.Cryptonote

open Foundation

/-! ## Groups of seven bits -/

def writeVarint (i : Nat) : List UInt8 :=
  if i < 0x80 then [i.toUInt8]
  else (i.toUInt8 &&& 0x7f ||| 0x80) :: writeVarint (i >>> 7)
termination_by i
decreasing_by
  rw [Nat.shiftRight_eq_div_pow]
  omega

inductive VarintError where
  | overflow
  | nonCanonical
deriving DecidableEq

/-- The number and how many bytes are read of it, also where the input ends. -/
def readVarint (bits : Nat) : List UInt8 → (shift read i : Nat) → Except VarintError (Nat × Nat)
  | [], _, read, i => .ok (i, read)
  | byte :: rest, shift, read, i =>
      if bits ≤ shift + 7 ∧ 1 <<< (bits - shift) ≤ byte.toNat then .error .overflow
      else if byte = 0 ∧ shift ≠ 0 then .error .nonCanonical
      else
        let i := i ||| ((byte &&& 0x7f).toNat <<< shift) % 2 ^ bits
        if byte &&& 0x80 = 0 then .ok (i, read + 1)
        else readVarint bits rest (shift + 7) (read + 1) i

/-! ## Addresses -/

def addrChecksumSize : Nat := 4

def keySize : Nat := 32

def paymentIdSize : Nat := 8

/-- The fields of these sizes that bytes consist of. -/
def parseBinary : List Nat → List UInt8 → Option (List (List UInt8))
  | [], [] => some []
  | [], _ :: _ => none
  | size :: sizes, data =>
      if data.length < size then none
      else (parseBinary sizes (data.drop size)).map (data.take size :: ·)

section Addresses

variable (cnFastHash : List UInt8 → Vector UInt8 32)

def checksum (data : List UInt8) : List UInt8 := (cnFastHash data).toList.take addrChecksumSize

def encodeAddr (tag : UInt64) (data : List UInt8) : List UInt8 :=
  let buf := writeVarint tag.toNat ++ data
  Base58.encode (buf ++ checksum cnFastHash buf)

def decodeAddr (addr : List UInt8) : Option (UInt64 × List UInt8) :=
  match Base58.decode addr with
  | none => none
  | some addrData =>
      if addrData.length ≤ addrChecksumSize then none
      else
        let body := addrData.take (addrData.length - addrChecksumSize)
        if checksum cnFastHash body ≠ addrData.drop (addrData.length - addrChecksumSize) then none
        else
          match readVarint 64 body 0 0 0 with
          | .error _ => none
          | .ok (tag, read) => if read = 0 then none else some (tag.toUInt64, body.drop read)

variable (checkKey : List UInt8 → Bool)

/-- The prefix of an address whose data are such fields, the first two of them keys, or zero. -/
def decodePrefix (sizes : List Nat) (input : List UInt8) : UInt64 :=
  match decodeAddr cnFastHash input with
  | none => 0
  | some (tag, data) =>
      if data.length = 0 then 0
      else
        match parseBinary sizes data with
        | some (spend :: view :: _) => if !checkKey spend || !checkKey view then 0 else tag
        | _ => 0

def decodeAddress (input : List UInt8) : UInt64 :=
  decodePrefix cnFastHash checkKey [keySize, keySize] input

def decodeIntegratedAddress (input : List UInt8) : UInt64 :=
  decodePrefix cnFastHash checkKey [keySize, keySize, paymentIdSize] input

inductive CryptonoteNetworkType where
  | main
  | test
  | stage
deriving DecidableEq

structure CryptonoteCoinTemplate where
  addressPrefix : UInt64
  subAddressPrefix : UInt64
  addressPrefixTestnet : UInt64
  subAddressPrefixTestnet : UInt64
  addressPrefixStagenet : UInt64
  subAddressPrefixStagenet : UInt64
  addressPrefixIntegrated : UInt64
  addressPrefixIntegratedStagenet : UInt64
  addressPrefixIntegratedTestnet : UInt64

/-- The prefixes of a network: addresses, subaddresses, integrated addresses. -/
def CryptonoteCoinTemplate.prefixes (coin : CryptonoteCoinTemplate) :
    CryptonoteNetworkType → UInt64 × UInt64 × UInt64
  | .main => (coin.addressPrefix, coin.subAddressPrefix, coin.addressPrefixIntegrated)
  | .test =>
      (coin.addressPrefixTestnet, coin.subAddressPrefixTestnet, coin.addressPrefixIntegratedTestnet)
  | .stage =>
      (coin.addressPrefixStagenet, coin.subAddressPrefixStagenet,
        coin.addressPrefixIntegratedStagenet)

def validateAddress (coin : CryptonoteCoinTemplate) (networkType : CryptonoteNetworkType)
    (address : List UInt8) : Bool :=
  if address = [] then false
  else
    let addressPrefix := decodeAddress cnFastHash checkKey address
    let addressIntegratedPrefix := decodeIntegratedAddress cnFastHash checkKey address
    let (prefix', subPrefix, integratedPrefix) := coin.prefixes networkType
    !(addressPrefix != prefix' && addressPrefix != subPrefix &&
      addressIntegratedPrefix != integratedPrefix)

end Addresses

/-! ## Numbers in groups of seven bits -/

theorem toNat_toUInt8 {n : Nat} (h : n < 0x100) : n.toUInt8.toNat = n :=
  UInt8.toNat_ofNat_of_lt' h

theorem toNat_and_7f (byte : UInt8) : (byte &&& 0x7f).toNat = byte.toNat % 0x80 := by
  rw [UInt8.toNat_and]
  exact Nat.and_two_pow_sub_one_eq_mod byte.toNat 7

theorem toNat_or_80 {byte : UInt8} (h : byte.toNat < 0x80) :
    (byte ||| 0x80).toNat = 0x80 + byte.toNat := by
  rw [UInt8.toNat_or, Nat.or_comm]
  exact (@Nat.two_pow_add_eq_or_of_lt 7 byte.toNat h 1).symm

theorem and_80_eq_zero_iff (byte : UInt8) : byte &&& 0x80 = 0 ↔ byte.toNat < 0x80 := by
  have hbyte := byte.toNat_lt
  have hand : (byte &&& 0x80).toNat = (byte.toNat.testBit 7).toNat * 2 ^ 7 := by
    rw [UInt8.toNat_and]
    exact Nat.and_two_pow byte.toNat 7
  have hzero : (0 : UInt8).toNat = 0 := rfl
  rw [← UInt8.toNat_inj, hand, hzero, Nat.testBit_eq_decide_div_mod_eq]
  by_cases h : byte.toNat / 2 ^ 7 % 2 = 1
  · rw [decide_eq_true h]
    simp only [Bool.toNat_true]
    omega
  · rw [decide_eq_false h]
    simp only [Bool.toNat_false]
    omega

theorem writeVarint_of_lt {n : Nat} (h : n < 0x80) : writeVarint n = [n.toUInt8] := by
  rw [writeVarint, if_pos h]

theorem writeVarint_of_ge {n : Nat} (h : 0x80 ≤ n) :
    writeVarint n = (n % 0x80 + 0x80).toUInt8 :: writeVarint (n / 0x80) := by
  have hlow : (n.toUInt8 &&& 0x7f).toNat = n % 0x80 := by
    have hcast : n.toUInt8.toNat = n % 2 ^ 8 := UInt8.toNat_ofNat'
    rw [toNat_and_7f, hcast]
    omega
  have hbyte : n.toUInt8 &&& 0x7f ||| 0x80 = (n % 0x80 + 0x80).toUInt8 := by
    have hcast : (n % 0x80 + 0x80).toUInt8.toNat = n % 0x80 + 0x80 :=
      toNat_toUInt8 (by omega)
    rw [← UInt8.toNat_inj, toNat_or_80 (by omega), hlow, hcast, Nat.add_comm]
  rw [writeVarint, if_neg (Nat.not_lt_of_ge h), hbyte, Nat.shiftRight_eq_div_pow]

/-- The groups that are read so far and the number in the groups to come. -/
theorem or_shiftLeft_step (i n shift : Nat) :
    (i ||| (n % 0x80) <<< shift) ||| (n / 0x80) <<< (shift + 7) = i ||| n <<< shift := by
  rw [Nat.or_assoc, Nat.add_comm shift 7, Nat.shiftLeft_add, ← Nat.shiftLeft_or_distrib]
  congr 2
  rw [Nat.or_comm, Nat.shiftLeft_eq, Nat.mul_comm]
  have hlow : n % 0x80 < 2 ^ 7 := Nat.mod_lt n (by decide)
  rw [← Nat.two_pow_add_eq_or_of_lt hlow]
  exact Nat.div_add_mod n 0x80

theorem low_group_lt {bits shift group : Nat} (hshift : shift ≤ bits)
    (h : group < 2 ^ (bits - shift)) : group <<< shift % 2 ^ bits = group <<< shift := by
  apply Nat.mod_eq_of_lt
  rw [Nat.shiftLeft_eq]
  calc
    group * 2 ^ shift < 2 ^ (bits - shift) * 2 ^ shift :=
      Nat.mul_lt_mul_of_pos_right h (Nat.two_pow_pos shift)
    _ = 2 ^ bits := by rw [← Nat.pow_add, Nat.sub_add_cancel hshift]

/-- A number that fits is read as it was written. -/
theorem readVarint_writeVarint {bits shift : Nat} (n : Nat) (hshift : shift ≤ bits)
    (hn : n < 2 ^ (bits - shift)) (hne : shift ≠ 0 → n ≠ 0) (rest : List UInt8) (read i : Nat) :
    readVarint bits (writeVarint n ++ rest) shift read i =
      .ok (i ||| n <<< shift, read + (writeVarint n).length) := by
  induction n using Nat.strongRecOn generalizing shift read i with
  | ind n ih =>
      rcases Nat.lt_or_ge n 0x80 with hlt | hge
      · have hbyte : n.toUInt8.toNat = n := toNat_toUInt8 (by omega)
        have hfits : ¬ (bits ≤ shift + 7 ∧ 1 <<< (bits - shift) ≤ n.toUInt8.toNat) := by
          rw [hbyte, Nat.one_shiftLeft]
          exact fun h => absurd h.2 (Nat.not_le_of_gt hn)
        have hcanonical : ¬ (n.toUInt8 = 0 ∧ shift ≠ 0) := by
          rintro ⟨hzero, hs⟩
          apply hne hs
          rw [← hbyte, hzero]
          rfl
        rw [writeVarint_of_lt hlt, List.singleton_append, readVarint, if_neg hfits,
          if_neg hcanonical]
        simp only
        rw [if_pos ((and_80_eq_zero_iff _).mpr (hbyte.symm ▸ hlt)), toNat_and_7f, hbyte,
          Nat.mod_eq_of_lt hlt, low_group_lt hshift hn, List.length_singleton]
      · have hbyte : (n % 0x80 + 0x80).toUInt8.toNat = n % 0x80 + 0x80 :=
          toNat_toUInt8 (by omega)
        have hroom : shift + 7 < bits := by
          by_contra hfull
          have hle : 2 ^ (bits - shift) ≤ 2 ^ 7 := Nat.pow_le_pow_right Nat.two_pos (by omega)
          omega
        have hrest : n / 0x80 < 2 ^ (bits - (shift + 7)) := by
          apply Nat.div_lt_of_lt_mul
          change n < 2 ^ 7 * 2 ^ (bits - (shift + 7))
          have hsum : 7 + (bits - (shift + 7)) = bits - shift := by omega
          rwa [← Nat.pow_add, hsum]
        have hgroup : n % 0x80 < 2 ^ (bits - shift) := (Nat.mod_le n 0x80).trans_lt hn
        have hcanonical : ¬ ((n % 0x80 + 0x80).toUInt8 = 0 ∧ shift ≠ 0) := by
          rintro ⟨hzero, -⟩
          rw [← UInt8.toNat_inj, hbyte] at hzero
          exact absurd hzero (by have hz : (0 : UInt8).toNat = 0 := rfl; omega)
        have hmore : ¬ (n % 0x80 + 0x80).toUInt8 &&& 0x80 = 0 := by
          rw [and_80_eq_zero_iff, hbyte]
          omega
        have hlow : (n % 0x80 + 0x80) % 0x80 = n % 0x80 := by omega
        rw [writeVarint_of_ge hge, List.cons_append, readVarint,
          if_neg fun h => absurd h.1 (Nat.not_le_of_gt hroom), if_neg hcanonical]
        simp only
        rw [if_neg hmore, toNat_and_7f, hbyte, hlow, low_group_lt hshift hgroup,
          ih (n / 0x80) (by omega) hroom.le hrest (fun _ => by omega), or_shiftLeft_step,
          List.length_cons, Nat.add_right_comm, Nat.add_assoc]

/-- What is read before the end of the input was written. -/
theorem writeVarint_of_readVarint {bits : Nat} {bytes : List UInt8} {shift read i v r : Nat}
    (hshift : shift < bits) (h : readVarint bits bytes shift read i = .ok (v, r))
    (hend : r < read + bytes.length) :
    ∃ n rest, bytes = writeVarint n ++ rest ∧ v = i ||| n <<< shift ∧
      r = read + (writeVarint n).length ∧ n < 2 ^ (bits - shift) ∧ (shift ≠ 0 → n ≠ 0) := by
  induction bytes generalizing shift read i with
  | nil =>
      cases h
      exact absurd hend (Nat.lt_irrefl _)
  | cons byte rest ih =>
      rw [readVarint] at h
      split at h
      · cases h
      · rename_i hfits
        split at h
        · cases h
        · rename_i hcanonical
          have hgroup : byte.toNat < 0x80 → byte.toNat < 2 ^ (bits - shift) := by
            intro hlt
            by_cases hroom : bits ≤ shift + 7
            · rw [Nat.one_shiftLeft] at hfits
              exact Nat.lt_of_not_le fun hge => hfits ⟨hroom, hge⟩
            · have hle : 2 ^ 7 ≤ 2 ^ (bits - shift) :=
                Nat.pow_le_pow_right Nat.two_pos (by omega)
              omega
          have hself : byte.toNat.toUInt8 = byte := UInt8.ofNat_toNat
          simp only at h
          split at h
          · rename_i hlast
            rw [and_80_eq_zero_iff] at hlast
            have hbyte := hgroup hlast
            rw [toNat_and_7f, Nat.mod_eq_of_lt hlast, low_group_lt hshift.le hbyte] at h
            cases h
            refine ⟨byte.toNat, rest, ?_, rfl, ?_, hbyte, ?_⟩
            · rw [writeVarint_of_lt hlast, hself, List.singleton_append]
            · rw [writeVarint_of_lt hlast, List.length_singleton]
            · intro hs hzero
              exact hcanonical ⟨UInt8.toNat_inj.mp hzero, hs⟩
          · rename_i hmore
            rw [and_80_eq_zero_iff, Nat.not_lt] at hmore
            have hbyte := byte.toNat_lt
            have hroom : shift + 7 < bits := by
              by_contra hfull
              rw [Nat.one_shiftLeft] at hfits
              have hle : 2 ^ (bits - shift) ≤ 2 ^ 7 := Nat.pow_le_pow_right Nat.two_pos (by omega)
              exact hfits ⟨by omega, hle.trans hmore⟩
            rw [List.length_cons] at hend
            obtain ⟨n, rest', rfl, rfl, rfl, hn, hne⟩ := ih hroom h (by omega)
            have hnpos := hne (by omega)
            have hlow : (byte.toNat - 0x80 + 0x80 * n) % 0x80 = byte.toNat % 0x80 := by omega
            have hhigh : (byte.toNat - 0x80 + 0x80 * n) / 0x80 = n := by omega
            have hge : 0x80 ≤ byte.toNat - 0x80 + 0x80 * n := by omega
            have hhead : (byte.toNat % 0x80 + 0x80).toUInt8 = byte := by
              have hvalue : byte.toNat % 0x80 + 0x80 = byte.toNat := by omega
              rw [hvalue, hself]
            have hwrite : writeVarint (byte.toNat - 0x80 + 0x80 * n) = byte :: writeVarint n := by
              rw [writeVarint_of_ge hge, hlow, hhigh, hhead]
            have hfit : byte.toNat % 0x80 < 2 ^ (bits - shift) := by
              have hle : 2 ^ 7 ≤ 2 ^ (bits - shift) :=
                Nat.pow_le_pow_right Nat.two_pos (by omega)
              have hlt := Nat.mod_lt byte.toNat (by decide : 0x80 > 0)
              omega
            refine ⟨byte.toNat - 0x80 + 0x80 * n, rest', ?_, ?_, ?_, ?_, fun _ => by omega⟩
            · rw [hwrite, List.cons_append]
            · rw [← or_shiftLeft_step i (byte.toNat - 0x80 + 0x80 * n), hlow, hhigh, toNat_and_7f,
                low_group_lt hshift.le hfit]
            · rw [hwrite, List.length_cons]
              omega
            · have hsum : bits - shift = 7 + (bits - (shift + 7)) := by omega
              rw [hsum, Nat.pow_add]
              omega

/-! ## Addresses and their texts -/

section Texts

variable (cnFastHash : List UInt8 → Vector UInt8 32)

theorem length_checksum (data : List UInt8) :
    (checksum cnFastHash data).length = addrChecksumSize := by
  rw [checksum, List.length_take, Vector.length_toList]
  rfl

/-- What is not empty is decoded from the text it is encoded to, and from no other text. -/
theorem decodeAddr_eq_some {addr : List UInt8} {tag : UInt64} {data : List UInt8}
    (hdata : data ≠ []) :
    decodeAddr cnFastHash addr = some (tag, data) ↔ addr = encodeAddr cnFastHash tag data := by
  constructor
  · intro h
    rw [decodeAddr] at h
    split at h
    · cases h
    · rename_i addrData haddr
      have hencode := Base58.encode_of_decode haddr
      split at h
      · cases h
      · rename_i hlength
        dsimp only at h
        split at h
        · cases h
        · rename_i hcheck
          rw [not_not] at hcheck
          split at h
          · cases h
          · rename_i n read hread
            split at h
            · cases h
            · rename_i hpos
              obtain ⟨rfl, rfl⟩ := Prod.mk.inj (Option.some.inj h)
              have hend :
                  read < 0 + (addrData.take (addrData.length - addrChecksumSize)).length := by
                rw [Nat.zero_add]
                by_contra hge
                exact hdata (List.drop_eq_nil_of_le (Nat.le_of_not_lt hge))
              obtain ⟨n, rest, hbody, rfl, rfl, hn, -⟩ :=
                writeVarint_of_readVarint (by decide) hread hend
              have hvalue : (0 ||| n <<< 0).toUInt64.toNat = n := by
                rw [Nat.zero_or, Nat.shiftLeft_zero]
                exact UInt64.toNat_ofNat_of_lt' hn
              have hdrop : (writeVarint n ++ rest).drop (0 + (writeVarint n).length) = rest := by
                rw [Nat.zero_add, List.drop_left]
              rw [encodeAddr, hvalue, hbody, hdrop, ← hbody, hcheck, List.take_append_drop, hencode]
  · rintro rfl
    have hbody : ∀ body : List UInt8,
        (body ++ checksum cnFastHash body).length - addrChecksumSize = body.length := by
      intro body
      rw [List.length_append, length_checksum, Nat.add_sub_cancel]
    have hread := readVarint_writeVarint tag.toNat (Nat.zero_le 64) tag.toNat_lt
      (fun h => absurd rfl h) data 0 0
    have hwritten : (writeVarint tag.toNat).length ≠ 0 := by
      rw [writeVarint]
      split <;> simp
    have hlength : ¬ (writeVarint tag.toNat ++ data ++
        checksum cnFastHash (writeVarint tag.toNat ++ data)).length ≤ addrChecksumSize := by
      rw [List.length_append, List.length_append, length_checksum]
      omega
    rw [Nat.zero_or, Nat.shiftLeft_zero, Nat.zero_add] at hread
    rw [decodeAddr, encodeAddr, Base58.decode_encode]
    simp only [if_neg hlength, hbody, List.take_left, List.drop_left, ne_eq, not_true_eq_false,
      if_false, hread, if_neg hwritten]
    rw [Nat.toUInt64_eq, UInt64.ofNat_toNat]

theorem parseBinary_eq_some {sizes : List Nat} {data : List UInt8} {fields : List (List UInt8)} :
    parseBinary sizes data = some fields ↔
      fields.map List.length = sizes ∧ fields.flatten = data := by
  induction sizes generalizing data fields with
  | nil =>
      cases data with
      | nil =>
          rw [parseBinary, Option.some_inj, List.map_eq_nil_iff]
          constructor
          · rintro rfl
            exact ⟨rfl, rfl⟩
          · exact fun h => h.1.symm
      | cons byte data =>
          apply iff_of_false (by simp [parseBinary])
          rintro ⟨hnil, hflat⟩
          rw [List.map_eq_nil_iff.mp hnil] at hflat
          cases hflat
  | cons size sizes ih =>
      rw [parseBinary]
      split
      · rename_i hshort
        apply iff_of_false (by simp)
        rintro ⟨hsizes, rfl⟩
        cases fields with
        | nil => cases hsizes
        | cons field fields =>
            rw [List.map_cons, List.cons.injEq] at hsizes
            rw [List.flatten_cons, List.length_append, hsizes.1] at hshort
            exact absurd hshort (Nat.not_lt_of_ge (Nat.le_add_right _ _))
      · rename_i hlong
        rw [Option.map_eq_some_iff]
        constructor
        · rintro ⟨rest, hrest, rfl⟩
          obtain ⟨hsizes, hflat⟩ := ih.mp hrest
          rw [List.map_cons, hsizes, List.flatten_cons, hflat, List.take_append_drop,
            List.length_take, Nat.min_eq_left (Nat.le_of_not_lt hlong)]
          exact ⟨rfl, rfl⟩
        · rintro ⟨hsizes, rfl⟩
          cases fields with
          | nil => cases hsizes
          | cons field fields =>
              rw [List.map_cons, List.cons.injEq] at hsizes
              refine ⟨fields, ih.mpr ⟨hsizes.2, ?_⟩, ?_⟩
              · rw [List.flatten_cons, List.drop_left' hsizes.1]
              · rw [List.flatten_cons, List.take_left' hsizes.1]

variable (checkKey : List UInt8 → Bool)

/-- The text of a prefix, two valid keys and further fields of these sizes. -/
def IsAddress (sizes : List Nat) (tag : UInt64) (address : List UInt8) : Prop :=
  ∃ spend view fields, spend.length = keySize ∧ view.length = keySize ∧
    List.map List.length fields = sizes ∧ checkKey spend = true ∧ checkKey view = true ∧
    address = encodeAddr cnFastHash tag (spend ++ (view ++ fields.flatten))

theorem decodePrefix_iff {sizes : List Nat} {address : List UInt8} {tag : UInt64} (h : tag ≠ 0) :
    decodePrefix cnFastHash checkKey (keySize :: keySize :: sizes) address = tag ↔
      IsAddress cnFastHash checkKey sizes tag address := by
  constructor
  · intro hdecode
    rw [decodePrefix] at hdecode
    split at hdecode
    · exact absurd hdecode.symm h
    · rename_i tag' data haddr
      split at hdecode
      · exact absurd hdecode.symm h
      · rename_i hdata
        split at hdecode
        · rename_i spend view fields hparse
          split at hdecode
          · exact absurd hdecode.symm h
          · rename_i hkeys
            subst hdecode
            obtain ⟨hsizes, hflat⟩ := parseBinary_eq_some.mp hparse
            rw [List.map_cons, List.map_cons, List.cons.injEq, List.cons.injEq] at hsizes
            rw [Bool.or_eq_true, not_or, Bool.not_eq_true', Bool.not_eq_true', Bool.not_eq_false,
              Bool.not_eq_false] at hkeys
            have hne : data ≠ [] := fun hnil => hdata (by rw [hnil, List.length_nil])
            rw [decodeAddr_eq_some cnFastHash hne, ← hflat] at haddr
            exact ⟨spend, view, fields, hsizes.1, hsizes.2.1, hsizes.2.2, hkeys.1, hkeys.2, haddr⟩
        · exact absurd hdecode.symm h
  · rintro ⟨spend, view, fields, hspend, hview, hfields, hspendKey, hviewKey, haddr⟩
    have hlength : (spend ++ (view ++ fields.flatten)).length ≠ 0 := by
      rw [List.length_append, hspend, keySize]
      omega
    have hne : spend ++ (view ++ fields.flatten) ≠ [] := fun hnil => hlength (by rw [hnil]; rfl)
    have hparse : parseBinary (keySize :: keySize :: sizes) (spend ++ (view ++ fields.flatten)) =
        some (spend :: view :: fields) := by
      apply parseBinary_eq_some.mpr
      rw [List.map_cons, List.map_cons, hspend, hview, hfields]
      exact ⟨rfl, rfl⟩
    rw [decodePrefix, (decodeAddr_eq_some cnFastHash hne).mpr haddr]
    simp only [if_neg hlength, hparse, hspendKey, hviewKey, Bool.not_true, Bool.or_self,
      Bool.false_eq_true, if_false]

/-- The pool accepts the texts that addresses with its prefixes have. -/
theorem validateAddress_iff (coin : CryptonoteCoinTemplate) (networkType : CryptonoteNetworkType)
    (hmain : (coin.prefixes networkType).1 ≠ 0) (hsub : (coin.prefixes networkType).2.1 ≠ 0)
    (hintegrated : (coin.prefixes networkType).2.2 ≠ 0) (address : List UInt8) :
    validateAddress cnFastHash checkKey coin networkType address = true ↔
      IsAddress cnFastHash checkKey [] (coin.prefixes networkType).1 address ∨
      IsAddress cnFastHash checkKey [] (coin.prefixes networkType).2.1 address ∨
      IsAddress cnFastHash checkKey [paymentIdSize] (coin.prefixes networkType).2.2 address := by
  rw [← decodePrefix_iff cnFastHash checkKey hmain, ← decodePrefix_iff cnFastHash checkKey hsub,
    ← decodePrefix_iff cnFastHash checkKey hintegrated, validateAddress]
  split
  · rename_i hempty
    have hzero : ∀ sizes, decodePrefix cnFastHash checkKey sizes address = 0 := by
      intro sizes
      rw [hempty]
      rfl
    rw [hzero, hzero]
    apply iff_of_false Bool.false_ne_true
    rintro (h | h | h)
    · exact hmain h.symm
    · exact hsub h.symm
    · exact hintegrated h.symm
  · rw [decodeAddress, decodeIntegratedAddress]
    simp only [Bool.not_eq_true', Bool.and_eq_false_iff, bne_eq_false_iff_eq, or_assoc]

end Texts

/-- The prefixes of Monero. -/
def monero : CryptonoteCoinTemplate where
  addressPrefix := 18
  subAddressPrefix := 42
  addressPrefixTestnet := 53
  subAddressPrefixTestnet := 63
  addressPrefixStagenet := 24
  subAddressPrefixStagenet := 36
  addressPrefixIntegrated := 19
  addressPrefixIntegratedStagenet := 25
  addressPrefixIntegratedTestnet := 54

/-- A subaddress of Monero. -/
def moneroSubaddress : List UInt8 :=
  ['8', '8', '8', 't', 'N', 'k', 'Z', 'r', 'P', 'N', '6', 'J', 's', 'E', 'g', 'e', 'k', 'j',
    'M', 'n', 'A', 'B', 'U', '4', 'T', 'B', 'z', 'c', '2', 'D', 't', '2', '9', 'E', 'P', 'A',
    'v', 'k', 'R', 'x', 'b', 'A', 'N', 's', 'A', 'n', 'j', 'y', 'P', 'b', 'b', '3', 'i', 'Q',
    '1', 'Y', 'B', 'R', 'k', '1', 'U', 'X', 'c', 'd', 'R', 's', 'i', 'K', 'c', '9', 'd', 'h',
    'w', 'M', 'V', 'g', 'N', '5', 'S', '9', 'c', 'Q', 'U', 'i', 'y', 'o', 'o', 'g', 'D', 'a',
    'v', 'u', 'p', '3', 'H'].map fun c => c.toNat.toUInt8

/-- The hash of its prefix and keys. -/
def moneroSubaddressHash : Vector UInt8 32 :=
  #v[140, 60, 195, 48, 114, 178, 80, 104, 19, 182, 116, 51, 218, 118, 145, 25, 176, 89, 65,
    243, 136, 190, 185, 224, 55, 199, 67, 132, 23, 152, 91, 105]

theorem validateAddress_monero :
    IsAddress (fun _ => moneroSubaddressHash) (fun _ => true) [] 18 moneroSubaddress ∨
      IsAddress (fun _ => moneroSubaddressHash) (fun _ => true) [] 42 moneroSubaddress ∨
      IsAddress (fun _ => moneroSubaddressHash) (fun _ => true) [paymentIdSize] 19
        moneroSubaddress :=
  (validateAddress_iff (fun _ => moneroSubaddressHash) (fun _ => true) monero .main (by decide)
    (by decide) (by decide) moneroSubaddress).mp (by decide +kernel)

end Miningcore.Cryptonote
