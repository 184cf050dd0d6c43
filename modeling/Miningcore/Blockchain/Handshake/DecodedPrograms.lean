import Miningcore.Blockchain.Handshake.AddressEncoding
import Mathlib.Data.List.Basic

/-!
# Programs come back

The groups of five bits are read from the array that the bytes are written to. Fewer
bytes are written than groups are read, so that no group is lost, and the
accumulator is only looked at in its lowest twelve bits, whatever is above them.
-/

namespace Miningcore.Handshake

open Foundation HandshakeBech32Decoder

section accumulator

/-- What is masked are the lowest bits. -/
theorem toNat_masked (acc : BitVec 32) : (masked 8 acc).toNat = acc.toNat % 2 ^ 8 := by
  have hmasked : (acc &&& (1 <<< 8 - 1)).toNat = acc.toNat % 2 ^ 8 :=
    (BitVec.toNat_and _ _).trans (Nat.and_two_pow_sub_one_eq_mod acc.toNat 8)
  rw [masked, hmasked]
  exact UInt8.toNat_ofNat_of_lt' (Nat.mod_lt _ (by decide))

/-- The bits that a shift to the right leaves, if they do not reach the sign. -/
theorem bits_masked_sshiftRight {acc : BitVec 32} {count : ℕ} (h : 8 + count ≤ 32) :
    bits 8 (masked 8 (acc.sshiftRight count)).toNat = bits 8 (acc.toNat >>> count) := by
  rw [toNat_masked, bits_mod]
  apply bits_congr
  intro i hi
  have hbit := BitVec.getLsbD_sshiftRight acc count i
  rw [decide_eq_false (by omega), if_pos (by omega)] at hbit
  rw [Nat.testBit_shiftRight]
  exact hbit

/-- A group is appended to the accumulator's lowest bits. -/
theorem bits_append_group (acc : BitVec 32) {count : ℕ} (h : count + 5 ≤ 32) (group : UInt8)
    (hgroup : group.toNat < 2 ^ 5) :
    bits (count + 5) ((acc <<< 5) ||| BitVec.ofNat 32 group.toNat).toNat =
      bits count acc.toNat ++ bits 5 group.toNat := by
  have hvalue : ((acc <<< 5) ||| BitVec.ofNat 32 group.toNat).toNat =
      ((acc.toNat <<< 5) ||| group.toNat) % 2 ^ 32 := by
    rw [BitVec.toNat_or, BitVec.toNat_shiftLeft, BitVec.toNat_ofNat, Nat.or_mod_two_pow]
  rw [hvalue, bits_mod_of_le h, bits_shiftLeft_or hgroup]

/-- The bits that are left are zeros exactly if nothing is found by shifting them up. -/
theorem masked_shiftLeft_eq_zero {acc : BitVec 32} {count : ℕ} (hcount : count ≤ 8)
    (h : bits count acc.toNat = List.replicate count false) :
    masked 8 (acc <<< (8 - count)) = 0 := by
  have hshifted := bits_shiftLeft_or (Nat.two_pow_pos (8 - count)) count acc.toNat
  rw [Nat.or_zero, Nat.add_sub_cancel' hcount, h, bits_zero,
    List.replicate_append_replicate, Nat.add_sub_cancel' hcount,
    ← bits_mod_of_le (by decide : 8 ≤ 32), ← BitVec.toNat_shiftLeft, ← bits_mod,
    ← toNat_masked] at hshifted
  exact UInt8.toNat_inj.mp ((bits_eq_replicate_iff (UInt8.toNat_lt _)).mp hshifted)

end accumulator

section conversion

variable {data : Bytes}

/-- The array holds the bytes that are written and, after them, what is not overwritten. -/
structure Holds (data written : Bytes) (state : Conversion) : Prop where
  j_eq : state.j = written.length
  buffer_eq : state.buffer = written ++ data.drop written.length

theorem Holds.set {written : Bytes} {state : Conversion} (h : Holds data written state)
    (hroom : written.length < data.length) (byte : UInt8) :
    state.buffer.set state.j byte =
      written ++ [byte] ++ data.drop (written ++ [byte]).length := by
  rw [h.buffer_eq, h.j_eq, List.set_append_right _ _ le_rfl, Nat.sub_self,
    List.drop_eq_getElem_cons hroom, List.set_cons_zero, List.length_append,
    List.length_singleton, List.append_assoc, List.singleton_append]

/-- The complete groups of the accumulator are written. -/
theorem exists_writeGroups (state : Conversion) {written : Bytes} (h : Holds data written state)
    (hbits : state.bits ≤ 32) (hroom : 8 * written.length + state.bits ≤ 8 * data.length) :
    ∃ written', Holds data written' (writeGroups 8 state) ∧
      (writeGroups 8 state).bits < 8 ∧
      bitStream 8 (written'.map UInt8.toNat) ++
          bits (writeGroups 8 state).bits (writeGroups 8 state).acc.toNat =
        bitStream 8 (written.map UInt8.toNat) ++ bits state.bits state.acc.toNat := by
  induction hcount : state.bits using Nat.strongRecOn generalizing state written with
  | ind count ih =>
      by_cases hmore : 8 ≤ state.bits ∧ 0 < 8
      · have hsplit := bits_add 8 (state.bits - 8) state.acc.toNat
        rw [Nat.add_sub_cancel' hmore.1,
          ← bits_masked_sshiftRight (by omega : 8 + (state.bits - 8) ≤ 32)] at hsplit
        obtain ⟨written', hholds, hless, hstream⟩ := ih (state.bits - 8) (by omega)
          { state with
            bits := state.bits - 8
            buffer := state.buffer.set state.j (masked 8 (state.acc.sshiftRight (state.bits - 8)))
            j := state.j + 1 }
          ⟨by rw [h.j_eq, List.length_append, List.length_singleton], h.set (by omega) _⟩
          (by dsimp only; omega)
          (by rw [List.length_append, List.length_singleton]; dsimp only; omega) rfl
        rw [writeGroups, if_pos hmore]
        refine ⟨written', hholds, hless, hstream.trans ?_⟩
        rw [List.map_append, bitStream_append, List.append_assoc, List.map_singleton,
          bitStream_singleton, ← hcount, hsplit]
      · rw [writeGroups, if_neg hmore, ← hcount]
        exact ⟨written, h, by omega, rfl⟩

/-- What the loop has read up to an index is what it has written and what the accumulator still
holds. -/
theorem exists_readGroups (hgroups : ∀ group ∈ data, group.toNat < 2 ^ 5) {i : ℕ}
    (hi : i ≤ data.length) {state : Conversion} {written read : Bytes}
    (h : Holds data written state) (hbits : state.bits < 8)
    (hread : bitStream 8 (written.map UInt8.toNat) ++ bits state.bits state.acc.toNat =
      bitStream 5 (read.map UInt8.toNat)) (hlength : read.length ≤ i) :
    ∃ written', Holds data written' (readGroups 8 5 data.length i state) ∧
      (readGroups 8 5 data.length i state).bits < 8 ∧
      bitStream 8 (written'.map UInt8.toNat) ++
          bits (readGroups 8 5 data.length i state).bits
            (readGroups 8 5 data.length i state).acc.toNat =
        bitStream 5 ((read ++ data.drop i).map UInt8.toNat) := by
  induction hrest : data.length - i generalizing i state written read with
  | zero =>
      rw [readGroups, if_neg (by omega), List.drop_eq_nil_of_le (by omega), List.append_nil]
      exact ⟨written, h, hbits, hread⟩
  | succ rest ih =>
      have hlt : i < data.length := by omega
      have hcounts := congrArg List.length hread
      rw [List.length_append, length_bits, length_bitStream, length_bitStream, List.length_map,
        List.length_map] at hcounts
      -- the bytes written so far end before the group that is read now
      have hgroup : state.buffer.getD i 0 = data[i] := by
        rw [h.buffer_eq, List.getD_append_right _ _ _ _ (by omega), List.getD_eq_getElem?_getD,
          List.getElem?_drop, Nat.add_sub_cancel' (by omega), List.getElem?_eq_getElem hlt,
          Option.getD_some]
      have hmem := hgroups data[i] (List.getElem_mem hlt)
      rw [readGroups, if_pos hlt, hgroup, List.drop_eq_getElem_cons hlt,
        ← List.singleton_append, ← List.append_assoc]
      obtain ⟨written', hholds, hless, hstream⟩ := exists_writeGroups
        { state with
          acc := (state.acc <<< 5) ||| BitVec.ofNat 32 data[i].toNat
          bits := state.bits + 5 }
        ⟨h.j_eq, h.buffer_eq⟩ (by dsimp only; omega) (by dsimp only; omega)
      apply ih hlt hholds hless _ (by rw [List.length_append, List.length_singleton]; omega)
        (by omega)
      rw [hstream, bits_append_group _ (by omega) _ hmem, ← List.append_assoc, hread,
        List.map_append, bitStream_append, List.map_singleton, bitStream_singleton]

/-- Groups that hold a program, and fewer than five zeros after it, are regrouped to it. -/
theorem convert_eq_ok {version : UInt8} {groups program : Bytes}
    (hgroups : ∀ group ∈ version :: groups, group.toNat < 2 ^ 5) {count : ℕ} (hcount : count < 5)
    (hstream : bitStream 5 (groups.map UInt8.toNat) =
      bitStream 8 (program.map UInt8.toNat) ++ List.replicate count false) :
    convert 8 5 (version :: groups) 0 1 false = .ok program := by
  have hstart : Holds (version :: groups) [] { buffer := version :: groups, j := 0 } := ⟨rfl, rfl⟩
  have hnone : bitStream 8 (([] : Bytes).map UInt8.toNat) ++ bits 0 (0 : BitVec 32).toNat =
      bitStream 5 (([] : Bytes).map UInt8.toNat) := rfl
  obtain ⟨written, hholds, hless, hread⟩ := exists_readGroups hgroups (Nat.le_add_left 1 _)
    hstart (Nat.zero_lt_succ 7) hnone (Nat.zero_le 1)
  rw [List.nil_append, List.drop_one, List.tail_cons, hstream] at hread
  have hbytes (bytes : Bytes) : ∀ n ∈ bytes.map UInt8.toNat, n < 2 ^ 8 := by
    intro n hn
    obtain ⟨byte, -, rfl⟩ := List.mem_map.mp hn
    exact byte.toNat_lt
  obtain ⟨hwritten, hrest⟩ := bitStream_split (hbytes _) (hbytes _)
    (by rwa [length_bits]) (by rw [List.length_replicate]; omega) hread
  obtain rfl := List.map_injective_iff.mpr (fun _ _ => UInt8.toNat_inj.mp) hwritten
  have hbits := congrArg List.length hrest
  rw [length_bits, List.length_replicate] at hbits
  rw [← hbits] at hrest hcount
  rw [convert, if_neg (by rw [List.length_cons]; omega)]
  dsimp only
  rw [masked_shiftLeft_eq_zero hless.le hrest, if_neg Bool.false_ne_true,
    if_neg (not_or.mpr ⟨not_not.mpr rfl, not_le.mpr hcount⟩), hholds.j_eq, hholds.buffer_eq,
    List.take_left]

end conversion

section addresses

variable {hrp : List Char} {version : UInt8} (program : Bytes)

theorem isSymbols_addressSymbols (hversion : version < 32) :
    bech32Register.IsSymbols (addressSymbols version program) :=
  List.forall_mem_cons.mpr ⟨hversion, (groupsOf_spec (by decide) _).1⟩

theorem length_addressSymbols (version : UInt8) :
    (addressSymbols version program).length = (8 * program.length + 4) / 5 + 1 := by
  rw [addressSymbols, List.length_cons, length_groupsOf (by decide), length_bitStream,
    List.length_map]
  rfl

theorem length_encode (hrp : List Char) (version : UInt8) :
    (encode hrp version program).length = hrp.length + (8 * program.length + 4) / 5 + 8 := by
  have hchecksum : (createChecksum hrp (addressSymbols version program)).length = 6 :=
    bech32Register.length_closing _ _
  rw [encode, List.length_append, List.length_cons, List.length_map, List.length_append,
    hchecksum, length_addressSymbols]
  omega

/-- As bytes, the symbols are the version and groups that hold the program. -/
theorem exists_groups (hversion : version < 32) : ∃ groups : Bytes,
    (addressSymbols version program).map Nat.toUInt8 = version :: groups ∧
    (∀ group ∈ version :: groups, group.toNat < 2 ^ 5) ∧
    ∃ count < 5, bitStream 5 (groups.map UInt8.toNat) =
      bitStream 8 (program.map UInt8.toNat) ++ List.replicate count false := by
  obtain ⟨hlt, hstream⟩ := groupsOf_spec (by decide : 0 < 5)
    (bitStream 8 (program.map UInt8.toNat))
  have htoNat : ∀ n ∈ groupsOf 5 (bitStream 8 (program.map UInt8.toNat)),
      n.toUInt8.toNat = n :=
    fun n hn => UInt8.toNat_ofNat_of_lt' ((hlt n hn).trans (by decide))
  refine ⟨(groupsOf 5 (bitStream 8 (program.map UInt8.toNat))).map Nat.toUInt8, ?_, ?_, ?_⟩
  · rw [addressSymbols, List.map_cons]
    exact congrArg (· :: _) UInt8.ofNat_toNat
  · refine List.forall_mem_cons.mpr ⟨UInt8.lt_iff_toNat_lt.mp hversion, ?_⟩
    intro group hgroup
    obtain ⟨n, hn, rfl⟩ := List.mem_map.mp hgroup
    rw [htoNat n hn]
    exact hlt n hn
  · have hsame := (List.map_congr_left htoNat).trans (List.map_id _)
    rw [List.map_map]
    exact hsame.symm ▸ hstream

theorem isSymbols_createChecksum (symbols : List ℕ) :
    bech32Register.IsSymbols (createChecksum hrp symbols) :=
  bech32Register.isSymbols_closing _ _

theorem isSymbols_hrpExpand (h : IsPrefix hrp) : bech32Register.IsSymbols (hrpExpand hrp) := by
  apply ChecksumRegister.IsSymbols.append
  · apply ChecksumRegister.IsSymbols.append _ (ChecksumRegister.isSymbols_replicate 1)
    intro symbol hsymbol
    obtain ⟨ch, hch, rfl⟩ := List.mem_map.mp hsymbol
    have hhigh := (h.2 ch hch).2.1
    rw [Nat.shiftRight_eq_div_pow]
    exact (Nat.div_le_div_right hhigh).trans_lt (by decide)
  · intro symbol hsymbol
    obtain ⟨ch, -, rfl⟩ := List.mem_map.mp hsymbol
    exact Nat.mod_lt _ (by decide)

/-- The checksum completes the symbols. -/
theorem feed_createChecksum (h : IsPrefix hrp) {symbols : List ℕ}
    (hsymbols : bech32Register.IsSymbols symbols) :
    bech32Register.feed 1 (hrpExpand hrp ++ (symbols ++ createChecksum hrp symbols)) = 1 := by
  have hregister := bech32Register.feed_lt ((isSymbols_hrpExpand h).append hsymbols)
    (by decide : 1 < bech32Register.size)
  rw [← List.append_assoc, ChecksumRegister.feed_append]
  exact bech32Register.feed_closing hregister (by decide)

variable {program}

/-- An address is read back to its symbols. -/
theorem deserialize_encode (h : IsPrefix hrp) (hversion : version < 32)
    (hlength : (encode hrp version program).length ≤ 90) :
    deserialize 1 (encode hrp version program) =
      .ok (hrp, (addressSymbols version program).map Nat.toUInt8) := by
  have hsymbols := isSymbols_addressSymbols program hversion
  have hchecksum : (createChecksum hrp (addressSymbols version program)).length = 6 :=
    bech32Register.length_closing _ _
  rw [encode, List.length_append, List.length_cons, List.length_map] at hlength
  rw [encode, deserialize_eq_ok h (hsymbols.append (isSymbols_createChecksum _))
    (by rw [List.length_append]; omega) (by omega) (feed_createChecksum h hsymbols),
    List.length_append, hchecksum, Nat.add_sub_cancel, List.take_left]

/-- The program of an address comes back with its version, and an address without a right checksum
is not accepted. -/
theorem decode_reference :
    (∀ hrp version program, IsPrefix hrp → version < 32 → 2 ≤ program.length →
      program.length ≤ 40 → (encode hrp version program).length ≤ 90 →
      decode 1 (encode hrp version program) = .ok (hrp, version, program)) ∧
    ∀ addr, ¬HasChecksum addr → ∃ message, decode 1 addr = .error message := by
  constructor
  · intro hrp version program h hversion hshort hlong hlength
    obtain ⟨groups, hdata, hgroups, count, hzeros, hstream⟩ := exists_groups program hversion
    have hcount := congrArg List.length hdata
    rw [List.length_map, length_addressSymbols, List.length_cons] at hcount
    have hversion' : ¬31 < version := by
      rw [UInt8.lt_iff_toNat_lt] at hversion ⊢
      exact not_lt.mpr (Nat.le_of_lt_succ hversion)
    rw [decode, deserialize_encode h hversion hlength, hdata]
    dsimp only
    rw [if_neg (by rw [List.length_cons]; omega), if_neg hversion',
      convert_eq_ok hgroups hzeros hstream]
    exact if_neg (by omega)
  · intro addr h
    rcases hdeserialize : deserialize 1 addr with message | result
    · exact ⟨message, by rw [decode, hdeserialize]⟩
    · exact absurd (hasChecksum_of_deserialize hdeserialize) h

theorem decode_reference_hs :
    decode 1 (encode "hs".toList 0 [0, 255]) = .ok ("hs".toList, 0, [0, 255]) ∧
      ∃ message, decode 1 "hsqqqqqqqqqqqq".toList = .error message := by
  constructor
  · have hhrp : IsPrefix "hs".toList := ⟨by decide, by simp⟩
    exact decode_reference.1 "hs".toList 0 [0, 255] hhrp (by decide) (by decide) (by decide)
      (by rw [length_encode]; decide)
  · apply decode_reference.2
    rintro ⟨hrp, symbols, haddr, -⟩
    have hmem : '1' ∈ hrp ++ '1' :: symbols.map charOf :=
      List.mem_append_right _ List.mem_cons_self
    rw [← haddr] at hmem
    exact absurd hmem (by decide)

end addresses

end Miningcore.Handshake
