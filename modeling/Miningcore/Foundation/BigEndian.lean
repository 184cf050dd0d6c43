import Mathlib.Data.List.Lex
import Miningcore.Foundation.BitGroups

/-!
# Big-endian numbers

The digits of a number in base `2 ^ width`, the highest first, hold its bits. The
bytes are the digits of eight bits. They compare like the number they hold, and
the exclusive or of bytes is that of the numbers.
-/

namespace Foundation

/-- The `count` lowest digits of `width` bits, the highest of them first. -/
def digits (width : ℕ) : ℕ → ℕ → List ℕ
  | 0, _ => []
  | count + 1, n => (n >>> (width * count)) % 2 ^ width :: digits width count n

section digits

variable {width count : ℕ}

@[simp] theorem length_digits (n : ℕ) : (digits width count n).length = count := by
  induction count with
  | zero => rfl
  | succ count ih => rw [digits, List.length_cons, ih]

theorem digits_lt {n digit : ℕ} (h : digit ∈ digits width count n) : digit < 2 ^ width := by
  induction count with
  | zero => exact absurd h List.not_mem_nil
  | succ count ih =>
      rw [digits, List.mem_cons] at h
      rcases h with rfl | h
      · exact Nat.mod_lt _ (Nat.two_pow_pos width)
      · exact ih h

theorem digits_concat (n : ℕ) :
    digits width (count + 1) n = digits width count (n >>> width) ++ [n % 2 ^ width] := by
  induction count with
  | zero => rw [digits, digits, digits, Nat.mul_zero, Nat.shiftRight_zero, List.nil_append]
  | succ count ih =>
      have hshift : (n >>> width) >>> (width * count) = n >>> (width * (count + 1)) := by
        rw [← Nat.shiftRight_add, Nat.mul_succ, Nat.add_comm]
      rw [digits, ih, ← List.cons_append, digits, hshift]

theorem bitStream_digits (n : ℕ) :
    bitStream width (digits width count n) = bits (width * count) n := by
  induction count with
  | zero => rfl
  | succ count ih =>
      rw [digits, bitStream, List.flatMap_cons, ← bitStream, ih, bits_mod, Nat.mul_succ,
        Nat.add_comm, bits_add]

/-- Groups of bits are the digits of the number that has them. -/
theorem eq_digits {values : List ℕ} {n : ℕ} (hvalues : ∀ value ∈ values, value < 2 ^ width)
    (h : bitStream width values = bits (width * count) n) (hwidth : 0 < width) :
    values = digits width count n := by
  apply bitStream_injective hvalues (fun _ => digits_lt)
  · have hlength := congrArg List.length h
    rw [length_bitStream, length_bits] at hlength
    rw [length_digits]
    exact Nat.eq_of_mul_eq_mul_left hwidth hlength
  · rw [bitStream_digits, h]

end digits

/-- The `width` lowest bytes of a number, the highest of them first. -/
def bigEndian : ℕ → ℕ → List UInt8
  | 0, _ => []
  | width + 1, n => (n >>> (8 * width)).toUInt8 :: bigEndian width n

/-- The number that bytes hold. -/
def bigEndianValue (bytes : List UInt8) : ℕ := bytes.foldl (fun n byte => n <<< 8 ||| byte.toNat) 0

section bigEndian

variable {width a b n : ℕ}

@[simp] theorem length_bigEndian (width n : ℕ) : (bigEndian width n).length = width := by
  induction width with
  | zero => rfl
  | succ width ih => rw [bigEndian, List.length_cons, ih]

theorem map_toNat_bigEndian (width n : ℕ) :
    (bigEndian width n).map UInt8.toNat = digits 8 width n := by
  induction width with
  | zero => rfl
  | succ width ih =>
      have hhead : (n >>> (8 * width)).toUInt8.toNat = (n >>> (8 * width)) % 2 ^ 8 :=
        UInt8.toNat_ofNat'
      rw [bigEndian, List.map_cons, ih, digits, hhead]

theorem bitStream_bigEndian (width n : ℕ) :
    bitStream 8 ((bigEndian width n).map UInt8.toNat) = bits (8 * width) n := by
  rw [map_toNat_bigEndian, bitStream_digits]

theorem bigEndian_getElem {i : ℕ} (h : i < (bigEndian width n).length) :
    (bigEndian width n)[i] = (n >>> (8 * (width - i - 1))).toUInt8 := by
  induction width generalizing i with
  | zero => exact absurd h (Nat.not_lt_zero i)
  | succ width ih =>
      cases i with
      | zero => rfl
      | succ i =>
          simp only [bigEndian, List.getElem_cons_succ]
          rw [ih, Nat.add_sub_add_right]

/-- Only the lowest bytes matter. -/
theorem bigEndian_mod (width n : ℕ) :
    bigEndian width (n % 2 ^ (8 * width)) = bigEndian width n := by
  apply List.map_injective_iff.mpr (fun _ _ => UInt8.toNat_inj.mp)
  rw [map_toNat_bigEndian, map_toNat_bigEndian]
  apply bitStream_injective (fun _ => digits_lt) (fun _ => digits_lt) (by simp)
  rw [bitStream_digits, bitStream_digits, bits_mod]

theorem bigEndian_injective (ha : a < 2 ^ (8 * width)) (hb : b < 2 ^ (8 * width))
    (h : bigEndian width a = bigEndian width b) : a = b := by
  apply bits_injective ha hb
  rw [← bitStream_bigEndian, ← bitStream_bigEndian, h]

theorem bigEndian_xor (width a b : ℕ) :
    List.zipWith (· ^^^ ·) (bigEndian width a) (bigEndian width b) = bigEndian width (a ^^^ b) := by
  induction width with
  | zero => rfl
  | succ width ih =>
      rw [bigEndian, bigEndian, bigEndian, List.zipWith_cons_cons, ih, Nat.shiftRight_xor_distrib]
      congr 1
      apply UInt8.toNat_inj.mp
      rw [UInt8.toNat_xor]
      exact Nat.xor_mod_two_pow.symm

theorem bigEndian_zero (width : ℕ) : bigEndian width 0 = List.replicate width 0 := by
  induction width with
  | zero => rfl
  | succ width ih =>
      rw [bigEndian, ih, Nat.zero_shiftRight, List.replicate_succ]
      rfl

/-- Bytes compare like the numbers they hold. -/
theorem bigEndian_append_lt_iff (ha : a < 2 ^ (8 * width)) (hb : b < 2 ^ (8 * width)) (hne : a ≠ b)
    (s t : List UInt8) : bigEndian width a ++ s < bigEndian width b ++ t ↔ a < b := by
  induction width generalizing a b with
  | zero =>
      rw [Nat.mul_zero, pow_zero, Nat.lt_one_iff] at ha hb
      exact absurd (ha.trans hb.symm) hne
  | succ width ih =>
      have hpow := Nat.two_pow_pos (8 * width)
      have hsplit : ∀ n, 2 ^ (8 * width) * (n >>> (8 * width)) + n % 2 ^ (8 * width) = n := by
        intro n
        rw [Nat.shiftRight_eq_div_pow, Nat.div_add_mod]
      have hshift : ∀ {m n : ℕ}, m >>> (8 * width) < n >>> (8 * width) → m < n := by
        intro m n hlt
        rw [Nat.shiftRight_eq_div_pow, Nat.shiftRight_eq_div_pow] at hlt
        exact Nat.lt_of_div_lt_div hlt
      have hhead : ∀ n < 2 ^ (8 * (width + 1)),
          (n >>> (8 * width)).toUInt8.toNat = n >>> (8 * width) := by
        intro n hn
        apply UInt8.toNat_ofNat_of_lt'
        rw [Nat.shiftRight_eq_div_pow]
        apply Nat.div_lt_of_lt_mul
        change n < 2 ^ (8 * width) * 2 ^ 8
        rwa [← pow_add, ← Nat.mul_succ]
      rw [bigEndian, bigEndian, List.cons_append, List.cons_append, List.cons_lt_cons_iff,
        UInt8.lt_iff_toNat_lt, ← UInt8.toNat_inj, hhead a ha, hhead b hb,
        ← bigEndian_mod width a, ← bigEndian_mod width b]
      have hamod := Nat.mod_lt a hpow
      have hbmod := Nat.mod_lt b hpow
      rcases lt_trichotomy (a >>> (8 * width)) (b >>> (8 * width)) with hlt | heq | hgt
      · exact iff_of_true (.inl hlt) (hshift hlt)
      · have hasplit := hsplit a
        have hbsplit := hsplit b
        rw [heq] at hasplit
        have hmodne : a % 2 ^ (8 * width) ≠ b % 2 ^ (8 * width) := by
          intro hmod
          apply hne
          omega
        have hlow : a < b ↔ a % 2 ^ (8 * width) < b % 2 ^ (8 * width) := by omega
        rw [ih hamod hbmod hmodne, hlow]
        constructor
        · rintro (h | h)
          · exact absurd heq h.ne
          · exact h.2
        · exact fun h => .inr ⟨heq, h⟩
      · apply iff_of_false
        · rintro (h | h)
          · exact absurd hgt (lt_asymm h)
          · exact hgt.ne' h.1
        · exact Nat.not_lt_of_gt (hshift hgt)

theorem bigEndianValue_append (bytes : List UInt8) (byte : UInt8) :
    bigEndianValue (bytes ++ [byte]) = bigEndianValue bytes <<< 8 ||| byte.toNat := by
  rw [bigEndianValue, List.foldl_append]
  rfl

theorem bigEndianValue_spec (bytes : List UInt8) :
    bigEndianValue bytes < 2 ^ (8 * bytes.length) ∧
      bits (8 * bytes.length) (bigEndianValue bytes) = bitStream 8 (bytes.map UInt8.toNat) := by
  induction bytes using List.reverseRecOn with
  | nil => exact ⟨Nat.one_pos, rfl⟩
  | append_singleton bytes byte ih =>
      rw [bigEndianValue_append, List.length_append, List.length_singleton, Nat.mul_add]
      refine ⟨shiftLeft_or_lt ih.1 byte.toNat_lt, ?_⟩
      rw [bits_shiftLeft_or byte.toNat_lt, ih.2, List.map_append, bitStream_append,
        List.map_singleton, bitStream_singleton]

theorem bigEndian_bigEndianValue (bytes : List UInt8) :
    bigEndian bytes.length (bigEndianValue bytes) = bytes := by
  apply List.map_injective_iff.mpr (fun _ _ => UInt8.toNat_inj.mp)
  rw [map_toNat_bigEndian]
  symm
  apply eq_digits _ (bigEndianValue_spec bytes).2.symm (by decide)
  intro value hvalue
  obtain ⟨byte, -, rfl⟩ := List.mem_map.mp hvalue
  exact byte.toNat_lt

theorem bigEndianValue_bigEndian (h : n < 2 ^ (8 * width)) :
    bigEndianValue (bigEndian width n) = n := by
  have hspec := bigEndianValue_spec (bigEndian width n)
  rw [length_bigEndian, bitStream_bigEndian] at hspec
  exact bits_injective hspec.1 h hspec.2

end bigEndian

end Foundation
