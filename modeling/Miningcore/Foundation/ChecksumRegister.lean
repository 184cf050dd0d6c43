import Mathlib.Algebra.Order.Ring.Nat
import Mathlib.Data.List.Induction
import Mathlib.Data.Nat.Bitwise
import Mathlib.Tactic.Ring

/-!
# Checksums by a feedback register

A register holds a fixed number of symbols. When a symbol is shifted in, the one
that is shifted out is mixed into what stays. If the mixing is linear and its end tells
the symbol, shifting loses nothing: the symbols that bring the register to a value
exist and are determined, and one changed symbol changes the outcome.
-/

namespace Foundation

/-- `tail + 1` symbols of `width` bits, and what a symbol shifted out is mixed in as. -/
structure ChecksumRegister where
  width : ℕ
  tail : ℕ
  mix : ℕ → ℕ
  mix_xor (a b : ℕ) : mix (a ^^^ b) = mix a ^^^ mix b
  mix_lt (a : ℕ) : mix a < 2 ^ (width * (tail + 1))
  eq_zero_of_mix_mod : ∀ a < 2 ^ width, mix a % 2 ^ width = 0 → a = 0

/-- A number as symbols, the highest first. -/
def symbolsOf (width count n : ℕ) : List ℕ :=
  (List.range count).map fun i => (n >>> (width * (count - 1 - i))) % 2 ^ width

theorem length_symbolsOf (width count n : ℕ) : (symbolsOf width count n).length = count := by
  rw [symbolsOf, List.length_map, List.length_range]

theorem lt_of_mem_symbolsOf {width count n symbol : ℕ}
    (h : symbol ∈ symbolsOf width count n) : symbol < 2 ^ width := by
  rw [symbolsOf, List.mem_map] at h
  obtain ⟨i, -, rfl⟩ := h
  exact Nat.mod_lt _ (Nat.two_pow_pos width)

theorem symbolsOf_succ (width count n : ℕ) :
    symbolsOf width (count + 1) n = symbolsOf width count (n >>> width) ++ [n % 2 ^ width] := by
  rw [symbolsOf, List.range_succ, List.map_append, List.map_singleton, Nat.add_sub_cancel,
    Nat.sub_self, Nat.mul_zero, Nat.shiftRight_zero, symbolsOf]
  congr 1
  apply List.map_congr_left
  intro i hi
  rw [List.mem_range] at hi
  have hindex : width * (count - i) = width + width * (count - 1 - i) := by
    rw [show count - i = 1 + (count - 1 - i) by omega, Nat.mul_add, Nat.mul_one]
  rw [hindex, Nat.shiftRight_add]

section shifting

variable {width symbol : ℕ} (n : ℕ)

theorem shiftLeft_xor_shiftRight (h : symbol < 2 ^ width) :
    ((n <<< width) ^^^ symbol) >>> width = n := by
  rw [Nat.shiftRight_xor_distrib, Nat.shiftLeft_shiftRight, Nat.shiftRight_eq_zero _ _ h,
    Nat.xor_zero]

theorem shiftLeft_xor_mod (h : symbol < 2 ^ width) :
    ((n <<< width) ^^^ symbol) % 2 ^ width = symbol := by
  rw [Nat.xor_mod_two_pow, Nat.shiftLeft_eq, Nat.mul_mod_left, Nat.mod_eq_of_lt h, Nat.zero_xor]

theorem shiftLeft_xor_eq (h : symbol < 2 ^ width) :
    (n <<< width) ^^^ symbol = 2 ^ width * n + symbol := by
  have hparts := Nat.div_add_mod ((n <<< width) ^^^ symbol) (2 ^ width)
  rw [shiftLeft_xor_mod n h, ← Nat.shiftRight_eq_div_pow, shiftLeft_xor_shiftRight n h] at hparts
  exact hparts.symm

end shifting

namespace ChecksumRegister

variable (checksum : ChecksumRegister)

def size : ℕ := 2 ^ (checksum.width * (checksum.tail + 1))

/-- Shift a symbol in, and mix in the one that is shifted out. -/
def push (register symbol : ℕ) : ℕ :=
  (((register % 2 ^ (checksum.width * checksum.tail)) <<< checksum.width) ^^^ symbol) ^^^
    checksum.mix (register >>> (checksum.width * checksum.tail))

def feed (register : ℕ) (symbols : List ℕ) : ℕ := symbols.foldl checksum.push register

/-- The symbols are as wide as those of the register. -/
def IsSymbols (symbols : List ℕ) : Prop := ∀ symbol ∈ symbols, symbol < 2 ^ checksum.width

@[simp] theorem mix_zero : checksum.mix 0 = 0 := by
  have h := checksum.mix_xor 0 0
  rwa [Nat.xor_self, Nat.xor_self] at h

theorem size_eq :
    checksum.size = 2 ^ (checksum.width * checksum.tail) * 2 ^ checksum.width := by
  rw [size, Nat.mul_add, Nat.mul_one, pow_add]

theorem width_le_size : 2 ^ checksum.width ≤ checksum.size := by
  rw [size_eq]
  exact Nat.le_mul_of_pos_left _ (Nat.two_pow_pos _)

theorem push_lt {symbol : ℕ} (h : symbol < 2 ^ checksum.width) (register : ℕ) :
    checksum.push register symbol < checksum.size := by
  apply Nat.xor_lt_two_pow _ (checksum.mix_lt _)
  apply Nat.xor_lt_two_pow _ (h.trans_le checksum.width_le_size)
  have hlow := Nat.mod_lt register (Nat.two_pow_pos (checksum.width * checksum.tail))
  change _ < checksum.size
  rw [Nat.shiftLeft_eq, size_eq]
  exact Nat.mul_lt_mul_of_pos_right hlow (Nat.two_pow_pos _)

/-- Shifting is linear. -/
theorem push_xor (register register' symbol symbol' : ℕ) :
    checksum.push (register ^^^ register') (symbol ^^^ symbol') =
      checksum.push register symbol ^^^ checksum.push register' symbol' := by
  rw [push, push, push, Nat.xor_mod_two_pow, Nat.shiftLeft_xor_distrib,
    Nat.shiftRight_xor_distrib, checksum.mix_xor]
  ac_rfl

/-- Only the empty register stays empty when no symbol is shifted in. -/
theorem eq_zero_of_push {register : ℕ} (hregister : register < checksum.size)
    (h : checksum.push register 0 = 0) : register = 0 := by
  have htop : register >>> (checksum.width * checksum.tail) < 2 ^ checksum.width := by
    rw [Nat.shiftRight_eq_div_pow]
    exact Nat.div_lt_of_lt_mul (checksum.size_eq ▸ hregister)
  have hmixed := congrArg (· % 2 ^ checksum.width) h
  rw [push, Nat.xor_zero] at h hmixed
  rw [Nat.xor_mod_two_pow, Nat.shiftLeft_eq, Nat.mul_mod_left, Nat.zero_xor,
    Nat.zero_mod] at hmixed
  have hout := checksum.eq_zero_of_mix_mod _ htop hmixed
  rw [hout, mix_zero, Nat.xor_zero, Nat.shiftLeft_eq_zero_iff] at h
  rw [Nat.shiftRight_eq_div_pow] at hout
  rw [← Nat.div_add_mod register (2 ^ (checksum.width * checksum.tail)), h, hout, Nat.mul_zero]

/-- Equal registers after the same symbol were equal before it. -/
theorem push_injective {register register' symbol : ℕ} (hregister : register < checksum.size)
    (hregister' : register' < checksum.size)
    (h : checksum.push register symbol = checksum.push register' symbol) :
    register = register' := by
  have hdifference := checksum.push_xor register register' symbol symbol
  rw [h, Nat.xor_self, Nat.xor_self] at hdifference
  have hzero := checksum.eq_zero_of_push (Nat.xor_lt_two_pow hregister hregister') hdifference
  exact Nat.xor_right_injective ((Nat.xor_self register).trans hzero.symm)

/-- Equal registers after a symbol each were equal before only if the symbols are equal. -/
theorem eq_of_push {register symbol symbol' : ℕ}
    (h : checksum.push register symbol = checksum.push register symbol') : symbol = symbol' :=
  Nat.xor_right_injective (Nat.xor_left_injective h)

variable {checksum}

theorem IsSymbols.append {symbols symbols' : List ℕ} (h : checksum.IsSymbols symbols)
    (h' : checksum.IsSymbols symbols') : checksum.IsSymbols (symbols ++ symbols') := by
  intro symbol hsymbol
  exact (List.mem_append.mp hsymbol).elim (h symbol) (h' symbol)

theorem isSymbols_replicate (count : ℕ) : checksum.IsSymbols (List.replicate count 0) := by
  intro symbol h
  rw [List.eq_of_mem_replicate h]
  exact Nat.two_pow_pos _

variable (checksum)

theorem feed_append (register : ℕ) (symbols symbols' : List ℕ) :
    checksum.feed register (symbols ++ symbols') =
      checksum.feed (checksum.feed register symbols) symbols' :=
  List.foldl_append

theorem feed_lt {symbols : List ℕ} (h : checksum.IsSymbols symbols) {register : ℕ}
    (hregister : register < checksum.size) : checksum.feed register symbols < checksum.size := by
  induction symbols generalizing register with
  | nil => exact hregister
  | cons symbol symbols ih =>
      obtain ⟨hsymbol, hsymbols⟩ := List.forall_mem_cons.mp h
      exact ih hsymbols (checksum.push_lt hsymbol register)

/-- Equal registers after the same symbols were equal before them. -/
theorem feed_injective {symbols : List ℕ} (h : checksum.IsSymbols symbols)
    {register register' : ℕ} (hregister : register < checksum.size)
    (hregister' : register' < checksum.size)
    (heq : checksum.feed register symbols = checksum.feed register' symbols) :
    register = register' := by
  induction symbols generalizing register register' with
  | nil => exact heq
  | cons symbol symbols ih =>
      obtain ⟨hsymbol, hsymbols⟩ := List.forall_mem_cons.mp h
      exact checksum.push_injective hregister hregister'
        (ih hsymbols (checksum.push_lt hsymbol _) (checksum.push_lt hsymbol _) heq)

/-- A register and the symbols shifted into it contribute separately. -/
theorem feed_eq_xor (register register' : ℕ) (symbols : List ℕ) :
    checksum.feed (register ^^^ register') symbols =
      checksum.feed register (List.replicate symbols.length 0) ^^^
        checksum.feed register' symbols := by
  induction symbols generalizing register register' with
  | nil => rfl
  | cons symbol symbols ih =>
      have hpush := checksum.push_xor register register' 0 symbol
      rw [Nat.zero_xor] at hpush
      exact (congrArg (checksum.feed · symbols) hpush).trans (ih _ _)

/-- Symbols that fit into an empty register are not mixed. -/
theorem push_of_lt {register : ℕ} (h : register < 2 ^ (checksum.width * checksum.tail))
    (symbol : ℕ) : checksum.push register symbol = (register <<< checksum.width) ^^^ symbol := by
  rw [push, Nat.mod_eq_of_lt h, Nat.shiftRight_eq_zero _ _ h, mix_zero, Nat.xor_zero]

/-- As many symbols as fit, the first of them below the tail, leave the register below its
capacity for them. -/
theorem feed_zero_lt {symbols : List ℕ} (h : checksum.IsSymbols symbols)
    (hlength : symbols.length ≤ checksum.tail + 1) :
    checksum.feed 0 symbols < 2 ^ (checksum.width * symbols.length) := by
  induction symbols using List.reverseRecOn with
  | nil => exact Nat.two_pow_pos _
  | append_singleton symbols symbol ih =>
      rw [List.length_append, List.length_singleton] at hlength ⊢
      have hsymbols : checksum.IsSymbols symbols := fun s hs => h s (List.mem_append_left _ hs)
      have hsymbol : symbol < 2 ^ checksum.width := h symbol (by simp)
      have hbefore := ih hsymbols (by omega)
      have htail : checksum.feed 0 symbols < 2 ^ (checksum.width * checksum.tail) :=
        hbefore.trans_le (Nat.pow_le_pow_right two_pos (Nat.mul_le_mul_left _ (by omega)))
      rw [feed_append]
      change checksum.push _ symbol < _
      rw [push_of_lt checksum htail, shiftLeft_xor_eq _ hsymbol, Nat.mul_add, Nat.mul_one, pow_add,
        Nat.mul_comm (2 ^ (checksum.width * symbols.length))]
      calc
        2 ^ checksum.width * checksum.feed 0 symbols + symbol
            < 2 ^ checksum.width * checksum.feed 0 symbols + 2 ^ checksum.width :=
          Nat.add_lt_add_left hsymbol _
        _ = 2 ^ checksum.width * (checksum.feed 0 symbols + 1) := by ring
        _ ≤ 2 ^ checksum.width * 2 ^ (checksum.width * symbols.length) :=
          Nat.mul_le_mul_left _ hbefore

theorem feed_zero_append {symbols : List ℕ} (h : checksum.IsSymbols symbols)
    (hlength : symbols.length ≤ checksum.tail) (symbol : ℕ) :
    checksum.feed 0 (symbols ++ [symbol]) =
      (checksum.feed 0 symbols <<< checksum.width) ^^^ symbol := by
  rw [feed_append]
  apply checksum.push_of_lt
  exact (checksum.feed_zero_lt h (by omega)).trans_le
    (Nat.pow_le_pow_right two_pos (Nat.mul_le_mul_left _ hlength))

/-- The symbols of a number bring the empty register to it. -/
theorem feed_symbolsOf {count : ℕ} (hcount : count ≤ checksum.tail + 1) (n : ℕ) :
    checksum.feed 0 (symbolsOf checksum.width count n) = n % 2 ^ (checksum.width * count) := by
  induction count generalizing n with
  | zero => simp [symbolsOf, feed, Nat.mod_one]
  | succ count ih =>
      rw [symbolsOf_succ, feed_zero_append checksum (fun _ => lt_of_mem_symbolsOf)
        (by rw [length_symbolsOf]; omega), ih (by omega),
        shiftLeft_xor_eq _ (Nat.mod_lt _ (Nat.two_pow_pos _)), Nat.mul_add, Nat.mul_one, pow_add,
        Nat.mul_comm (2 ^ (checksum.width * count)), Nat.mod_mul, Nat.shiftRight_eq_div_pow]
      exact Nat.add_comm _ _

/-- What the empty register becomes tells the symbols. -/
theorem symbolsOf_feed {symbols : List ℕ} (h : checksum.IsSymbols symbols)
    (hlength : symbols.length ≤ checksum.tail + 1) :
    symbolsOf checksum.width symbols.length (checksum.feed 0 symbols) = symbols := by
  induction symbols using List.reverseRecOn with
  | nil => rfl
  | append_singleton symbols symbol ih =>
      have hsymbols : checksum.IsSymbols symbols := fun s hs => h s (List.mem_append_left _ hs)
      have hsymbol : symbol < 2 ^ checksum.width := h symbol (by simp)
      rw [List.length_append, List.length_singleton] at hlength ⊢
      rw [symbolsOf_succ, feed_zero_append checksum hsymbols (by omega),
        shiftLeft_xor_shiftRight _ hsymbol, shiftLeft_xor_mod _ hsymbol,
        ih hsymbols (by omega)]

/-- The symbols that bring a register to a value. -/
def closing (register target : ℕ) : List ℕ :=
  symbolsOf checksum.width (checksum.tail + 1)
    (checksum.feed register (List.replicate (checksum.tail + 1) 0) ^^^ target)

theorem length_closing (register target : ℕ) :
    (checksum.closing register target).length = checksum.tail + 1 :=
  length_symbolsOf _ _ _

theorem isSymbols_closing (register target : ℕ) :
    checksum.IsSymbols (checksum.closing register target) :=
  fun _ => lt_of_mem_symbolsOf

theorem feed_closing {register target : ℕ} (hregister : register < checksum.size)
    (htarget : target < checksum.size) :
    checksum.feed register (checksum.closing register target) = target := by
  have hparts := checksum.feed_eq_xor register 0 (checksum.closing register target)
  rw [Nat.xor_zero, length_closing] at hparts
  have hvalue : checksum.feed register (List.replicate (checksum.tail + 1) 0) ^^^ target <
      checksum.size :=
    Nat.xor_lt_two_pow (checksum.feed_lt (isSymbols_replicate _) hregister) htarget
  rw [hparts, closing, feed_symbolsOf checksum le_rfl]
  rw [size] at hvalue
  rw [Nat.mod_eq_of_lt hvalue, ← Nat.xor_assoc, Nat.xor_self, Nat.zero_xor]

/-- Only the closing symbols bring a register to a value. -/
theorem eq_closing (register : ℕ) {symbols : List ℕ} (h : checksum.IsSymbols symbols)
    (hlength : symbols.length = checksum.tail + 1) :
    symbols = checksum.closing register (checksum.feed register symbols) := by
  have hparts := checksum.feed_eq_xor register 0 symbols
  rw [Nat.xor_zero, hlength] at hparts
  rw [closing, hparts, ← Nat.xor_assoc, Nat.xor_self, Nat.zero_xor, ← hlength,
    symbolsOf_feed checksum h hlength.le]

/-- One changed symbol changes the outcome. -/
theorem eq_of_feed_eq {register symbol symbol' : ℕ} {before after : List ℕ}
    (hsymbol : symbol < 2 ^ checksum.width) (hsymbol' : symbol' < 2 ^ checksum.width)
    (hafter : checksum.IsSymbols after)
    (h : checksum.feed register (before ++ symbol :: after) =
      checksum.feed register (before ++ symbol' :: after)) : symbol = symbol' := by
  rw [feed_append, feed_append] at h
  exact checksum.eq_of_push (checksum.feed_injective hafter (checksum.push_lt hsymbol _)
    (checksum.push_lt hsymbol' _) h)

end ChecksumRegister

/-! ### Generators -/

/-- What the generators add for a symbol that is shifted out. -/
def mixGenerators (generators : List (ℕ × ℕ)) (topBits checksum : ℕ) : ℕ :=
  generators.foldl (fun checksum entry =>
    if (topBits >>> entry.2) &&& 1 = 1 then checksum ^^^ entry.1 else checksum) checksum

section mixing

theorem shiftRight_and_one (topBits i : ℕ) :
    (topBits >>> i) &&& 1 = 1 ↔ topBits.testBit i = true := by
  rw [Nat.and_one_is_mod, Nat.testBit_eq_decide_div_mod_eq, decide_eq_true_iff,
    Nat.shiftRight_eq_div_pow]

theorem mixGenerators_eq_xor (generators : List (ℕ × ℕ)) (topBits checksum : ℕ) :
    mixGenerators generators topBits checksum =
      checksum ^^^ mixGenerators generators topBits 0 := by
  induction generators generalizing checksum with
  | nil => exact (Nat.xor_zero checksum).symm
  | cons entry generators ih =>
      change mixGenerators generators topBits (if _ then _ else _) =
        checksum ^^^ mixGenerators generators topBits (if _ then _ else _)
      split_ifs
      · rw [ih, ih (0 ^^^ entry.1), Nat.zero_xor, Nat.xor_assoc]
      · exact ih checksum

theorem mixGenerators_cons (entry : ℕ × ℕ) (generators : List (ℕ × ℕ)) (topBits : ℕ) :
    mixGenerators (entry :: generators) topBits 0 =
      (if topBits.testBit entry.2 then entry.1 else 0) ^^^ mixGenerators generators topBits 0 := by
  rw [← mixGenerators_eq_xor, mixGenerators, List.foldl_cons, Nat.zero_xor, ← mixGenerators]
  simp only [shiftRight_and_one]

theorem mixGenerators_xor (generators : List (ℕ × ℕ)) (a b : ℕ) :
    mixGenerators generators (a ^^^ b) 0 =
      mixGenerators generators a 0 ^^^ mixGenerators generators b 0 := by
  induction generators with
  | nil => exact (Nat.xor_self 0).symm
  | cons entry generators ih =>
      have hentry : (if (a ^^^ b).testBit entry.2 then entry.1 else 0) =
          (if a.testBit entry.2 then entry.1 else 0) ^^^
            if b.testBit entry.2 then entry.1 else 0 := by
        rw [Nat.testBit_xor]
        cases a.testBit entry.2 <;> cases b.testBit entry.2 <;> simp
      rw [mixGenerators_cons, mixGenerators_cons, mixGenerators_cons, hentry, ih]
      ac_rfl

theorem mixGenerators_lt {generators : List (ℕ × ℕ)} {size : ℕ}
    (h : ∀ entry ∈ generators, entry.1 < 2 ^ size) (topBits : ℕ) {checksum : ℕ}
    (hchecksum : checksum < 2 ^ size) :
    mixGenerators generators topBits checksum < 2 ^ size := by
  induction generators generalizing checksum with
  | nil => exact hchecksum
  | cons entry generators ih =>
      obtain ⟨hentry, hgenerators⟩ := List.forall_mem_cons.mp h
      change mixGenerators generators topBits (if _ then _ else _) < _
      split_ifs
      · exact ih hgenerators (Nat.xor_lt_two_pow hchecksum hentry)
      · exact ih hgenerators hchecksum

end mixing

end Foundation
