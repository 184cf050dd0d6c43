import Mathlib.Data.List.Induction
import Mathlib.Data.Nat.Bitwise

/-!
# Numbers as groups of bits

A stream of bits is a list of groups of one width and a remainder shorter than a
group, in one way only. So groups of one width that are regrouped to another
come back, whatever is done with the remainder. A stream is grouped by filling the
remainder with zeros.
-/

namespace Foundation

/-- The lowest bits of a number, the highest of them first. -/
def bits : ℕ → ℕ → List Bool
  | 0, _ => []
  | width + 1, n => n.testBit width :: bits width n

/-- The bits of numbers of one width. -/
def bitStream (width : ℕ) (values : List ℕ) : List Bool := values.flatMap (bits width)

section bits

@[simp] theorem length_bits (width n : ℕ) : (bits width n).length = width := by
  induction width with
  | zero => rfl
  | succ width ih => rw [bits, List.length_cons, ih]

theorem bits_add (high low n : ℕ) :
    bits (high + low) n = bits high (n >>> low) ++ bits low n := by
  induction high with
  | zero => rw [Nat.zero_add, bits, List.nil_append]
  | succ high ih =>
      rw [Nat.succ_add, bits, bits, List.cons_append, ih, Nat.testBit_shiftRight, Nat.add_comm low]

/-- Higher bits do not matter. -/
theorem bits_congr {width n m : ℕ} (h : ∀ i < width, n.testBit i = m.testBit i) :
    bits width n = bits width m := by
  induction width with
  | zero => rfl
  | succ width ih => rw [bits, bits, h width (Nat.lt_succ_self _), ih fun i hi => h i (by omega)]

@[simp] theorem bits_mod (width n : ℕ) : bits width (n % 2 ^ width) = bits width n := by
  apply bits_congr
  intro i hi
  rw [Nat.testBit_mod_two_pow, decide_eq_true hi, Bool.true_and]

/-- Neither do the bits that a wider number has lost. -/
theorem bits_mod_of_le {width size : ℕ} (h : width ≤ size) (n : ℕ) :
    bits width (n % 2 ^ size) = bits width n := by
  apply bits_congr
  intro i hi
  rw [Nat.testBit_mod_two_pow, decide_eq_true (hi.trans_le h), Bool.true_and]

theorem testBit_of_bits_eq {width n m : ℕ} (h : bits width n = bits width m) :
    ∀ i < width, n.testBit i = m.testBit i := by
  induction width with
  | zero => exact fun i hi => absurd hi (Nat.not_lt_zero i)
  | succ width ih =>
      rw [bits, bits, List.cons.injEq] at h
      intro i hi
      obtain hi | rfl := Nat.lt_succ_iff_lt_or_eq.mp hi
      · exact ih h.2 i hi
      · exact h.1

theorem bits_injective {width n m : ℕ} (hn : n < 2 ^ width) (hm : m < 2 ^ width)
    (h : bits width n = bits width m) : n = m := by
  apply Nat.eq_of_testBit_eq
  intro i
  by_cases hi : i < width
  · exact testBit_of_bits_eq h i hi
  · have hwidth := Nat.pow_le_pow_right Nat.two_pos (Nat.le_of_not_lt hi)
    rw [Nat.testBit_lt_two_pow (hn.trans_le hwidth), Nat.testBit_lt_two_pow (hm.trans_le hwidth)]

theorem bits_zero (width : ℕ) : bits width 0 = List.replicate width false := by
  induction width with
  | zero => rfl
  | succ width ih => rw [bits, ih, Nat.zero_testBit, List.replicate_succ]

theorem bits_eq_replicate_iff {width n : ℕ} (h : n < 2 ^ width) :
    bits width n = List.replicate width false ↔ n = 0 := by
  rw [← bits_zero]
  exact ⟨bits_injective h (Nat.two_pow_pos width), congrArg (bits width)⟩

/-- Bits put below a number follow its own. -/
theorem bits_shiftLeft_or {low top : ℕ} (h : top < 2 ^ low) (high n : ℕ) :
    bits (high + low) ((n <<< low) ||| top) = bits high n ++ bits low top := by
  rw [bits_add, Nat.shiftRight_or_distrib, Nat.shiftLeft_shiftRight, Nat.shiftRight_eq_zero _ _ h,
    Nat.or_zero]
  congr 1
  rw [← bits_mod, Nat.or_mod_two_pow, Nat.shiftLeft_eq, Nat.mul_mod_left, Nat.zero_or, bits_mod]

theorem shiftLeft_or_lt {high low n top : ℕ} (hn : n < 2 ^ high) (htop : top < 2 ^ low) :
    (n <<< low) ||| top < 2 ^ (high + low) := by
  apply Nat.or_lt_two_pow
  · rw [Nat.shiftLeft_eq, Nat.pow_add]
    exact Nat.mul_lt_mul_of_pos_right hn (Nat.two_pow_pos low)
  · exact htop.trans_le (Nat.pow_le_pow_right Nat.two_pos (Nat.le_add_left low high))

/-- The highest bits are what is left of a number shifted out. -/
theorem bits_shiftRight {count width : ℕ} (h : count ≤ width) (n : ℕ) :
    bits count (n >>> (width - count)) = (bits width n).take count := by
  have hsplit := bits_add count (width - count) n
  rw [Nat.add_sub_cancel' h] at hsplit
  rw [hsplit, List.take_left' (length_bits _ _)]

/-- Shifted to the left, a number is short of its highest bits. -/
theorem take_bits_shiftLeft {count width taken : ℕ} (h : count ≤ taken) (htaken : taken ≤ width)
    (n : ℕ) : (bits width (n <<< count % 2 ^ width)).take (taken - count) =
      ((bits width n).take taken).drop count := by
  have hshifted := bits_shiftLeft_or (Nat.two_pow_pos count) (width - count) n
  have hsplit := bits_add count (width - count) n
  rw [Nat.or_zero, Nat.sub_add_cancel (h.trans htaken)] at hshifted
  rw [Nat.add_sub_cancel' (h.trans htaken)] at hsplit
  rw [bits_mod, hshifted, hsplit, List.drop_take, List.drop_left' (length_bits _ _)]
  apply List.take_append_of_le_length
  rw [length_bits]
  omega

end bits

section streams

variable {width : ℕ}

theorem bitStream_append (values values' : List ℕ) :
    bitStream width (values ++ values') = bitStream width values ++ bitStream width values' :=
  List.flatMap_append

theorem bitStream_singleton (n : ℕ) : bitStream width [n] = bits width n :=
  List.flatMap_singleton _ _

theorem length_bitStream (values : List ℕ) :
    (bitStream width values).length = width * values.length := by
  induction values with
  | nil => exact (Nat.mul_zero width).symm
  | cons n values ih =>
      rw [bitStream, List.flatMap_cons, List.length_append, ← bitStream, ih, length_bits,
        List.length_cons, Nat.mul_succ, Nat.add_comm]

theorem bitStream_injective {values values' : List ℕ} (hvalues : ∀ n ∈ values, n < 2 ^ width)
    (hvalues' : ∀ n ∈ values', n < 2 ^ width) (hlength : values.length = values'.length)
    (h : bitStream width values = bitStream width values') : values = values' := by
  induction values generalizing values' with
  | nil => exact (List.length_eq_zero_iff.mp hlength.symm).symm
  | cons n values ih =>
      obtain ⟨m, others, rfl⟩ := List.exists_cons_of_length_eq_add_one hlength.symm
      obtain ⟨hn, hvalues⟩ := List.forall_mem_cons.mp hvalues
      obtain ⟨hm, hothers⟩ := List.forall_mem_cons.mp hvalues'
      rw [bitStream, bitStream, List.flatMap_cons, List.flatMap_cons] at h
      obtain ⟨hfirst, hrest⟩ := List.append_inj h ((length_bits _ _).trans (length_bits _ _).symm)
      rw [bits_injective hn hm hfirst,
        ih hvalues hothers (Nat.succ_injective hlength) hrest]

/-- A stream is groups and a remainder shorter than a group in one way. -/
theorem bitStream_split {values values' : List ℕ} {rest rest' : List Bool}
    (hvalues : ∀ n ∈ values, n < 2 ^ width) (hvalues' : ∀ n ∈ values', n < 2 ^ width)
    (hrest : rest.length < width) (hrest' : rest'.length < width)
    (h : bitStream width values ++ rest = bitStream width values' ++ rest') :
    values = values' ∧ rest = rest' := by
  have hlengths := congrArg List.length h
  rw [List.length_append, List.length_append, length_bitStream, length_bitStream] at hlengths
  have hgroups := congrArg (· / width) hlengths
  have hpos : 0 < width := Nat.zero_lt_of_lt hrest
  rw [Nat.mul_add_div hpos, Nat.mul_add_div hpos, Nat.div_eq_of_lt hrest,
    Nat.div_eq_of_lt hrest', Nat.add_zero, Nat.add_zero] at hgroups
  obtain ⟨hstream, hresteq⟩ := List.append_inj h
    (by rw [length_bitStream, length_bitStream, hgroups])
  exact ⟨bitStream_injective hvalues hvalues' hgroups hstream, hresteq⟩

end streams

/-! ### Grouping a stream -/

/-- The number whose bits, the highest first, are given. -/
def ofBits (stream : List Bool) : ℕ := stream.foldl (fun n bit => 2 * n + bit.toNat) 0

/-- The groups of a stream, the last one filled with zeros. -/
def groupsOf (width : ℕ) (stream : List Bool) : List ℕ :=
  if stream = [] ∨ width = 0 then []
  else
    ofBits (stream.take width ++ List.replicate (width - stream.length) false) ::
      groupsOf width (stream.drop width)
termination_by stream.length
decreasing_by
  rename_i h
  rw [not_or] at h
  have hpos := List.length_pos_iff.mpr h.1
  rw [List.length_drop]
  omega

section grouping

variable {width : ℕ}

theorem ofBits_append (stream : List Bool) (bit : Bool) :
    ofBits (stream ++ [bit]) = 2 * ofBits stream + bit.toNat := by
  rw [ofBits, List.foldl_append]
  rfl

theorem ofBits_lt (stream : List Bool) : ofBits stream < 2 ^ stream.length := by
  induction stream using List.reverseRecOn with
  | nil => exact Nat.one_pos
  | append_singleton stream bit ih =>
      have hbit := bit.toNat_lt
      rw [ofBits_append, List.length_append, List.length_singleton, pow_succ]
      omega

theorem bits_ofBits (stream : List Bool) : bits stream.length (ofBits stream) = stream := by
  induction stream using List.reverseRecOn with
  | nil => rfl
  | append_singleton stream bit ih =>
      have hhigh : (2 * ofBits stream + bit.toNat) >>> 1 = ofBits stream := by
        have hbit := bit.toNat_lt
        rw [Nat.shiftRight_one]
        omega
      have hlow : bits 1 (2 * ofBits stream + bit.toNat) = [bit] := by
        cases bit <;> simp [bits, Nat.testBit_zero]
      rw [List.length_append, List.length_singleton, bits_add, ofBits_append, hhigh, hlow, ih]

theorem groupsOf_spec (hwidth : 0 < width) (stream : List Bool) :
    (∀ n ∈ groupsOf width stream, n < 2 ^ width) ∧ ∃ count < width,
      bitStream width (groupsOf width stream) = stream ++ List.replicate count false := by
  induction stream using groupsOf.induct width with
  | case1 stream h =>
      obtain rfl := h.resolve_right hwidth.ne'
      rw [groupsOf, if_pos (Or.inl rfl)]
      exact ⟨fun _ hn => absurd hn List.not_mem_nil, 0, hwidth, rfl⟩
  | case2 stream h ih =>
      obtain ⟨hlt, count, hcount, hstream⟩ := ih
      have hlength : (stream.take width ++
          List.replicate (width - stream.length) false).length = width := by
        rw [List.length_append, List.length_take, List.length_replicate]
        omega
      have hfirst := bits_ofBits (stream.take width ++
        List.replicate (width - stream.length) false)
      rw [hlength] at hfirst
      rw [groupsOf, if_neg h]
      constructor
      · apply List.forall_mem_cons.mpr ⟨_, hlt⟩
        exact (ofBits_lt _).trans_eq (congrArg (2 ^ ·) hlength)
      · rw [bitStream, List.flatMap_cons, ← bitStream, hfirst, hstream]
        by_cases hlong : width ≤ stream.length
        · refine ⟨count, hcount, ?_⟩
          rw [Nat.sub_eq_zero_of_le hlong, List.replicate_zero, List.append_nil,
            ← List.append_assoc, List.take_append_drop]
        · have hnil : stream.drop width = [] := List.drop_eq_nil_of_le (by omega)
          have hpos := List.length_pos_iff.mpr (not_or.mp h).1
          have hnone : bitStream width (groupsOf width (stream.drop width)) = [] := by
            rw [hnil, groupsOf, if_pos (Or.inl rfl)]
            rfl
          refine ⟨width - stream.length, by omega, ?_⟩
          rw [← hstream, hnone, List.append_nil, List.take_of_length_le (by omega)]

theorem length_groupsOf (hwidth : 0 < width) (stream : List Bool) :
    (groupsOf width stream).length = (stream.length + width - 1) / width := by
  obtain ⟨-, count, hcount, hstream⟩ := groupsOf_spec hwidth stream
  have hlength := congrArg List.length hstream
  rw [length_bitStream, List.length_append, List.length_replicate] at hlength
  have hsum : stream.length + width - 1 =
      width * (groupsOf width stream).length + (width - 1 - count) := by omega
  rw [hsum, Nat.mul_add_div hwidth, Nat.div_eq_of_lt (by omega), Nat.add_zero]

end grouping

end Foundation
