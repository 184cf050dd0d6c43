import Mathlib.Algebra.Order.Round
import Mathlib.Data.Rat.Floor
import Mathlib.Tactic.FieldSimp
import Mathlib.Tactic.Linarith
import Mathlib.Tactic.Positivity

/-!
# Rounding to decimal places

A number is rounded to the nearest multiple of a power of ten. Halfway between
two multiples, the even one is taken. With a number of significant digits the power is
that of the last of them.
-/

namespace Foundation

/-- The nearest integer, the even one halfway between two. -/
def roundHalfEven (x : ℚ) : ℤ :=
  if Int.fract x < 1 / 2 then ⌊x⌋
  else if 1 / 2 < Int.fract x then ⌊x⌋ + 1
  else if Even ⌊x⌋ then ⌊x⌋ else ⌊x⌋ + 1

def roundDecimals (places : Nat) (x : ℚ) : ℚ := roundHalfEven (x * 10 ^ places) / 10 ^ places

/-- The number is a multiple of the last decimal place. -/
def HasDecimals (places : Nat) (x : ℚ) : Prop := ∃ n : ℤ, x * 10 ^ places = n

theorem roundHalfEven_intCast (n : ℤ) : roundHalfEven n = n := by
  rw [roundHalfEven, if_pos (by simp), Int.floor_intCast]

theorem roundHalfEven_eq_iff (x : ℚ) : (roundHalfEven x : ℚ) = x ↔ ∃ n : ℤ, x = n := by
  constructor
  · exact fun h => ⟨roundHalfEven x, h.symm⟩
  · rintro ⟨n, rfl⟩
    rw [roundHalfEven_intCast]

variable (places : Nat) (x : ℚ)

/-- Rounding leaves exactly the numbers that need no more places as they are. -/
theorem roundDecimals_eq_iff : roundDecimals places x = x ↔ HasDecimals places x := by
  have hpow : (10 : ℚ) ^ places ≠ 0 := by positivity
  rw [roundDecimals, div_eq_iff hpow, roundHalfEven_eq_iff]
  rfl

theorem hasDecimals_roundDecimals : HasDecimals places (roundDecimals places x) := by
  have hpow : (10 : ℚ) ^ places ≠ 0 := by positivity
  exact ⟨roundHalfEven (x * 10 ^ places), div_mul_cancel₀ _ hpow⟩

variable {places x}

/-- A number with few places has any larger number of places. -/
theorem HasDecimals.mono {places' : Nat} (h : HasDecimals places x) (hle : places ≤ places') :
    HasDecimals places' x := by
  obtain ⟨n, hn⟩ := h
  refine ⟨n * 10 ^ (places' - places), ?_⟩
  calc x * 10 ^ places'
      = x * 10 ^ places * 10 ^ (places' - places) := by
        rw [mul_assoc, ← pow_add, Nat.add_sub_cancel' hle]
    _ = ((n * 10 ^ (places' - places) : ℤ) : ℚ) := by
        rw [hn]
        push_cast
        rfl

theorem HasDecimals.add {y : ℚ} (hx : HasDecimals places x) (hy : HasDecimals places y) :
    HasDecimals places (x + y) := by
  obtain ⟨m, hm⟩ := hx
  obtain ⟨n, hn⟩ := hy
  refine ⟨m + n, ?_⟩
  rw [add_mul, hm, hn]
  push_cast
  rfl

/-! ## Sums of rounded numbers -/

/-- The number is rounded to the integer above its floor. -/
def RoundsUp (x : ℚ) : Prop := 1 / 2 < Int.fract x ∨ Int.fract x = 1 / 2 ∧ Odd ⌊x⌋

instance : DecidablePred RoundsUp := fun _ => inferInstanceAs (Decidable (_ ∨ _))

theorem roundHalfEven_eq (x : ℚ) : roundHalfEven x = ⌊x⌋ + if RoundsUp x then 1 else 0 := by
  rw [roundHalfEven]
  split
  · rename_i hlt
    have hdown : ¬ RoundsUp x := by
      rintro (hgt | ⟨heq, -⟩)
      · exact absurd hgt hlt.not_gt
      · exact absurd heq hlt.ne
    rw [if_neg hdown, add_zero]
  · rename_i hge
    split
    · rename_i hgt
      have hup : RoundsUp x := Or.inl hgt
      rw [if_pos hup]
    · rename_i hle
      have heq : Int.fract x = 1 / 2 := le_antisymm (not_lt.mp hle) (not_lt.mp hge)
      have hup : RoundsUp x ↔ ¬ Even ⌊x⌋ := by
        rw [RoundsUp, heq, Int.not_even_iff_odd]
        simp
      by_cases heven : Even ⌊x⌋
      · rw [if_pos heven, if_neg fun h => hup.mp h heven, add_zero]
      · rw [if_neg heven, if_pos (hup.mpr heven)]

theorem roundHalfEven_le (x : ℚ) : (roundHalfEven x : ℚ) ≤ x + 1 / 2 := by
  have hsplit : (⌊x⌋ : ℚ) + Int.fract x = x := Int.floor_add_fract x
  have hlow : 0 ≤ Int.fract x := Int.fract_nonneg x
  rw [roundHalfEven_eq]
  split
  · rename_i hup
    have hhalf : 1 / 2 ≤ Int.fract x := by
      obtain hgt | ⟨heq, -⟩ := hup
      · exact hgt.le
      · exact heq.ge
    push_cast
    linarith
  · push_cast
    linarith

theorem sub_half_le_roundHalfEven (x : ℚ) : x - 1 / 2 ≤ roundHalfEven x := by
  have hsplit : (⌊x⌋ : ℚ) + Int.fract x = x := Int.floor_add_fract x
  have hhigh : Int.fract x < 1 := Int.fract_lt_one x
  rw [roundHalfEven_eq]
  split
  · push_cast
    linarith
  · rename_i hdown
    have hhalf : Int.fract x ≤ 1 / 2 := not_lt.mp fun hgt => hdown (Or.inl hgt)
    push_cast
    linarith

/-- A number is rounded to less than an even one just if it is more than a half below it. -/
theorem roundHalfEven_lt_iff {n : ℤ} (heven : Even n) (x : ℚ) :
    roundHalfEven x < n ↔ x < n - 1 / 2 := by
  have hsplit : (⌊x⌋ : ℚ) + Int.fract x = x := Int.floor_add_fract x
  have hlow : 0 ≤ Int.fract x := Int.fract_nonneg x
  have hhigh : Int.fract x < 1 := Int.fract_lt_one x
  rw [roundHalfEven_eq]
  obtain hbelow | heq | habove : ⌊x⌋ + 1 < n ∨ ⌊x⌋ + 1 = n ∨ n ≤ ⌊x⌋ := by omega
  · have hcast : (⌊x⌋ : ℚ) + 2 ≤ n := by exact_mod_cast (by omega : ⌊x⌋ + 2 ≤ n)
    refine iff_of_true ?_ (by linarith)
    split <;> omega
  · have hodd : Odd ⌊x⌋ := by
      rw [← heq, Int.even_add_one] at heven
      exact Int.not_even_iff_odd.mp heven
    have hcast : (⌊x⌋ : ℚ) + 1 = n := by exact_mod_cast heq
    have hup : RoundsUp x ↔ 1 / 2 ≤ Int.fract x := by
      rw [RoundsUp, and_iff_left hodd, le_iff_lt_or_eq, eq_comm (a := (1 / 2 : ℚ))]
    split
    · rename_i h
      exact iff_of_false (by omega) (by linarith [hup.mp h])
    · rename_i h
      exact iff_of_true (by omega) (by linarith [not_le.mp fun hle => h (hup.mpr hle)])
  · have hcast : (n : ℚ) ≤ ⌊x⌋ := by exact_mod_cast habove
    refine iff_of_false ?_ (by linarith)
    split <;> omega

/-- The rounded numbers add up to the floors and one for each that is rounded up. -/
theorem sum_roundHalfEven (xs : List ℚ) :
    (xs.map roundHalfEven).sum = (xs.map Int.floor).sum + xs.countP RoundsUp := by
  induction xs with
  | nil => rfl
  | cons x xs ih =>
      rw [List.map_cons, List.sum_cons, ih, roundHalfEven_eq, List.map_cons, List.sum_cons,
        List.countP_cons]
      split <;> simp_all <;> ring

theorem roundHalfEven_nonneg_iff (x : ℚ) : 0 ≤ roundHalfEven x ↔ -1 / 2 ≤ x := by
  have hsplit : (⌊x⌋ : ℚ) + Int.fract x = x := Int.floor_add_fract x
  have hlow : 0 ≤ Int.fract x := Int.fract_nonneg x
  have hhigh : Int.fract x < 1 := Int.fract_lt_one x
  rw [roundHalfEven_eq]
  rcases lt_trichotomy ⌊x⌋ (-1) with hfloor | hfloor | hfloor
  · -- more than one below zero
    have hcast : (⌊x⌋ : ℚ) ≤ -2 := by exact_mod_cast Int.le_sub_one_of_lt hfloor
    apply iff_of_false
    · split <;> omega
    · linarith
  · rw [hfloor] at hsplit ⊢
    push_cast at hsplit
    have hup : RoundsUp x ↔ -1 / 2 ≤ x := by
      rw [RoundsUp, hfloor]
      constructor
      · rintro (hgt | ⟨heq, -⟩) <;> linarith
      · intro hle
        rcases (show 1 / 2 ≤ Int.fract x by linarith).lt_or_eq with hgt | heq
        · exact Or.inl hgt
        · exact Or.inr ⟨heq.symm, by decide⟩
    rw [← hup]
    by_cases h : RoundsUp x <;> simp [h]
  · have hcast : (0 : ℚ) ≤ ⌊x⌋ := by exact_mod_cast Int.add_one_le_iff.mpr hfloor
    apply iff_of_true
    · split <;> omega
    · linarith

/-- A whole number that is divided in two is kept, unless it is odd and the parts are halfway
between integers. -/
theorem roundHalfEven_sub_add_iff (n : ℤ) (x : ℚ) :
    roundHalfEven (n - x) + roundHalfEven x = n ↔ ¬ (Odd n ∧ Int.fract x = 1 / 2) := by
  by_cases hzero : Int.fract x = 0
  · -- both parts are integers
    obtain ⟨m, rfl⟩ : ∃ m : ℤ, x = m := ⟨⌊x⌋, sub_eq_zero.mp hzero⟩
    rw [← Int.cast_sub, roundHalfEven_intCast, roundHalfEven_intCast, sub_add_cancel]
    exact iff_of_true rfl fun h => by norm_num at h
  · have hfract : Int.fract (n - x) = 1 - Int.fract x := by
      rw [sub_eq_add_neg, Int.fract_intCast_add, Int.fract_neg hzero]
    have hfloor : ⌊n - x⌋ = n - 1 - ⌊x⌋ := by
      have hsplit : (⌊n - x⌋ : ℚ) + Int.fract (n - x) = n - x := Int.floor_add_fract _
      have hsplit' : (⌊x⌋ : ℚ) + Int.fract x = x := Int.floor_add_fract x
      have hcast : (⌊n - x⌋ : ℚ) = ((n - 1 - ⌊x⌋ : ℤ) : ℚ) := by
        push_cast
        linarith
      exact_mod_cast hcast
    rw [roundHalfEven_eq, roundHalfEven_eq, hfloor]
    rcases lt_trichotomy (Int.fract x) (1 / 2) with hlt | heq | hgt
    · have hup : RoundsUp (n - x) := Or.inl (by linarith)
      have hdown : ¬ RoundsUp x := by
        rintro (hgt | ⟨heq, -⟩)
        · exact absurd hgt hlt.not_gt
        · exact absurd heq hlt.ne
      rw [if_pos hup, if_neg hdown]
      exact iff_of_true (by ring) fun h => hlt.ne h.2
    · -- halfway, where the parities of the floors decide
      have hup : RoundsUp (n - x) ↔ Odd (n - 1 - ⌊x⌋) := by
        rw [RoundsUp, hfract, heq, hfloor]
        norm_num
      have hup' : RoundsUp x ↔ Odd ⌊x⌋ := by
        rw [RoundsUp, heq]
        norm_num
      simp only [hup, hup', heq, and_true]
      split <;> split <;> grind
    · have hdown : ¬ RoundsUp (n - x) := by
        rintro (hgt' | ⟨heq, -⟩) <;> linarith
      have hup : RoundsUp x := Or.inl hgt
      rw [if_neg hdown, if_pos hup]
      exact iff_of_true (by ring) fun h => hgt.ne' h.2

theorem roundHalfEven_mono {x y : ℚ} (hle : x ≤ y) : roundHalfEven x ≤ roundHalfEven y := by
  have hfloor : ⌊x⌋ ≤ ⌊y⌋ := Int.floor_le_floor hle
  rw [roundHalfEven_eq, roundHalfEven_eq]
  obtain hlt | heq := hfloor.lt_or_eq
  · split <;> split <;> omega
  · have hfract : Int.fract x ≤ Int.fract y := by
      rw [Int.fract, Int.fract, heq]
      linarith
    have hup (h : RoundsUp x) : RoundsUp y := by
      obtain hgt | ⟨hhalf, hodd⟩ := h
      · exact Or.inl (hgt.trans_le hfract)
      · obtain hgt | hhalf' := (hhalf ▸ hfract).lt_or_eq
        · exact Or.inl hgt
        · exact Or.inr ⟨hhalf'.symm, heq ▸ hodd⟩
    rw [heq]
    by_cases hx : RoundsUp x
    · rw [if_pos hx, if_pos (hup hx)]
    · rw [if_neg hx]
      split <;> omega

theorem roundHalfEven_neg (x : ℚ) : roundHalfEven (-x) = -roundHalfEven x := by
  have hsum := (roundHalfEven_sub_add_iff 0 x).mpr fun h => absurd h.1 (by decide)
  rw [Int.cast_zero, zero_sub] at hsum
  omega

/-- An integer in place of a number keeps its sum with another one, rounded down, just if the sum
is whole and the integer is the number rounded up. -/
theorem add_floor_eq_iff (n : ℤ) (x y : ℚ) :
    ((n + ⌊y⌋ : ℤ) : ℚ) = x + y ↔ (∃ m : ℤ, x + y = m) ∧ n = ⌈x⌉ := by
  constructor
  · intro h
    have hlow : 0 ≤ Int.fract y := Int.fract_nonneg y
    have hhigh : Int.fract y < 1 := Int.fract_lt_one y
    have hsplit : (⌊y⌋ : ℚ) + Int.fract y = y := Int.floor_add_fract y
    refine ⟨⟨n + ⌊y⌋, h.symm⟩, ?_⟩
    push_cast at h
    rw [eq_comm, Int.ceil_eq_iff]
    constructor <;> linarith
  · rintro ⟨⟨m, hm⟩, rfl⟩
    have hceil : ⌈x⌉ = m - ⌊y⌋ := by
      rw [eq_sub_of_add_eq hm, sub_eq_add_neg, Int.ceil_intCast_add, Int.ceil_neg, sub_eq_add_neg]
    rw [hceil, sub_add_cancel, hm]

theorem add_ceil_eq_iff (n : ℤ) (x y : ℚ) :
    ((n + ⌈y⌉ : ℤ) : ℚ) = x + y ↔ (∃ m : ℤ, x + y = m) ∧ n = ⌊x⌋ := by
  have h := add_floor_eq_iff (-n) (-x) (-y)
  have hleft : ((-n + ⌊-y⌋ : ℤ) : ℚ) = -x + -y ↔ ((n + ⌈y⌉ : ℤ) : ℚ) = x + y := by
    rw [Int.floor_neg, ← neg_add, ← neg_add, Int.cast_neg, neg_inj]
  have hwhole : (∃ m : ℤ, -x + -y = m) ↔ ∃ m : ℤ, x + y = m := by
    rw [← neg_add]
    constructor
    · rintro ⟨m, hm⟩
      exact ⟨-m, by rw [Int.cast_neg, ← hm, neg_neg]⟩
    · rintro ⟨m, hm⟩
      exact ⟨-m, by rw [Int.cast_neg, hm]⟩
  rw [← hleft, h, hwhole, Int.ceil_neg, neg_inj]

/-! ## Rounding away from zero -/

/-- The nearest integer, the one farther from zero halfway between two. -/
def roundHalfAway (x : ℚ) : ℤ := if 0 ≤ x then ⌊x + 1 / 2⌋ else ⌈x - 1 / 2⌉

/-- The two integers a number can be rounded to, by its fractional part. -/
theorem roundHalfAway_eq (x : ℚ) :
    roundHalfAway x = ⌊x⌋ + if Int.fract x < 1 / 2 then 0
      else if Int.fract x = 1 / 2 then (if 0 ≤ x then 1 else 0) else 1 := by
  have hsplit : (⌊x⌋ : ℚ) + Int.fract x = x := Int.floor_add_fract x
  have hlow : 0 ≤ Int.fract x := Int.fract_nonneg x
  have hhigh : Int.fract x < 1 := Int.fract_lt_one x
  rw [roundHalfAway]
  split
  · rw [Int.floor_eq_iff]
    split
    · push_cast
      constructor <;> linarith
    · split
      · push_cast
        constructor <;> linarith
      · rename_i hne hge
        push_cast
        constructor <;> linarith [not_lt.mp hne]
  · rw [Int.ceil_eq_iff]
    split
    · push_cast
      constructor <;> linarith
    · rename_i hge
      split
      · push_cast
        constructor <;> linarith
      · rename_i hne
        have hgt : 1 / 2 < Int.fract x := lt_of_le_of_ne (not_lt.mp hge) (Ne.symm hne)
        push_cast
        constructor <;> linarith

theorem roundHalfAway_intCast (n : ℤ) : roundHalfAway n = n := by
  rw [roundHalfAway_eq, Int.fract_intCast, if_pos (by norm_num), Int.floor_intCast, add_zero]

/-- Rounding commutes with adding an integer, except halfway between two integers when the sum
is on the other side of zero. -/
theorem roundHalfAway_intCast_add_iff (n : ℤ) (x : ℚ) :
    roundHalfAway (n + x) = n + roundHalfAway x ↔
      (Int.fract x = 1 / 2 → (0 ≤ n + x ↔ 0 ≤ x)) := by
  rw [roundHalfAway_eq, roundHalfAway_eq, Int.fract_intCast_add, Int.floor_intCast_add, add_assoc,
    add_right_inj, add_right_inj]
  split
  · rename_i hlt
    exact iff_of_true rfl fun heq => absurd heq hlt.ne
  · split
    · rename_i heq
      by_cases hsum : (0 : ℚ) ≤ n + x <;> by_cases hx : 0 ≤ x <;> simp [hsum, hx, heq]
    · rename_i hne
      exact iff_of_true rfl fun heq => absurd heq hne

/-! ## Significant digits -/

/-- The unit of the last of some significant digits of a number. -/
def significantUnit (count n : ℕ) : ℕ := 10 ^ ((Nat.toDigits 10 n).length - count)

/-- The nearest number with some significant digits. -/
def roundSignificant (count n : ℕ) : ℤ :=
  roundHalfEven (n / significantUnit count n) * significantUnit count n

section significant

variable {count n : ℕ}

/-- A number that has no more digits is kept. -/
theorem roundSignificant_of_lt (hcount : 0 < count) (h : n < 10 ^ count) :
    roundSignificant count n = n := by
  have hunit : significantUnit count n = 1 := by
    have hlength := (Nat.length_toDigits_le_iff (b := 10) (by decide) hcount).mpr h
    rw [significantUnit, Nat.sub_eq_zero_of_le hlength, pow_zero]
  rw [roundSignificant, hunit, Nat.cast_one, div_one, Nat.cast_one, mul_one, ← Int.cast_natCast,
    roundHalfEven_intCast]

theorem lt_length_toDigits (hcount : 0 < count) (h : 10 ^ count ≤ n) :
    count < (Nat.toDigits 10 n).length := by
  by_contra hnot
  have hlt := (Nat.length_toDigits_le_iff (b := 10) (by decide) hcount).mp (not_lt.mp hnot)
  exact absurd h hlt.not_ge

/-- A number that has more digits ends with a zero. -/
theorem ten_dvd_roundSignificant (hcount : 0 < count) (h : 10 ^ count ≤ n) :
    10 ∣ roundSignificant count n := by
  have hlength := lt_length_toDigits hcount h
  have hunit : (10 : ℤ) ∣ (significantUnit count n : ℤ) := by
    exact_mod_cast dvd_pow_self 10 (Nat.sub_pos_of_lt hlength).ne'
  exact hunit.mul_left _

/-- The unit is small against a number that has more digits. -/
theorem significantUnit_mul_le (hcount : 0 < count) (h : 10 ^ count ≤ n) :
    significantUnit count n * 10 ^ (count - 1) ≤ n := by
  have hlength := lt_length_toDigits hcount h
  have hlow : 10 ^ ((Nat.toDigits 10 n).length - 1) ≤ n := by
    by_contra hnot
    have hle := (Nat.length_toDigits_le_iff (b := 10) (by decide) (by omega)).mpr (not_le.mp hnot)
    omega
  calc significantUnit count n * 10 ^ (count - 1)
      = 10 ^ ((Nat.toDigits 10 n).length - 1) := by
        rw [significantUnit, ← pow_add]
        congr 1
        omega
    _ ≤ n := hlow

/-- A number is rounded by half a unit at most. -/
theorem abs_roundSignificant_sub_le (count n : ℕ) :
    |(roundSignificant count n : ℚ) - n| ≤ significantUnit count n / 2 := by
  have hunit : (0 : ℚ) < significantUnit count n := by
    rw [significantUnit]
    positivity
  have hscale : (n : ℚ) / significantUnit count n * significantUnit count n = n :=
    div_mul_cancel₀ _ hunit.ne'
  have hlow := mul_le_mul_of_nonneg_right
    (sub_half_le_roundHalfEven ((n : ℚ) / significantUnit count n)) hunit.le
  have hhigh := mul_le_mul_of_nonneg_right
    (roundHalfEven_le ((n : ℚ) / significantUnit count n)) hunit.le
  rw [sub_mul, hscale] at hlow
  rw [add_mul, hscale] at hhigh
  rw [roundSignificant, Int.cast_mul, Int.cast_natCast, abs_le]
  constructor <;> linarith

/-- The relative error. -/
theorem abs_roundSignificant_sub_mul_le (hcount : 0 < count) (n : ℕ) :
    |(roundSignificant count n : ℚ) - n| * (2 * 10 ^ (count - 1)) ≤ n := by
  obtain hlt | hge := lt_or_ge n (10 ^ count)
  · rw [roundSignificant_of_lt hcount hlt, Int.cast_natCast, sub_self, abs_zero, zero_mul]
    exact Nat.cast_nonneg n
  · calc |(roundSignificant count n : ℚ) - n| * (2 * 10 ^ (count - 1))
        ≤ significantUnit count n / 2 * (2 * 10 ^ (count - 1)) :=
          mul_le_mul_of_nonneg_right (abs_roundSignificant_sub_le count n) (by positivity)
      _ = ((significantUnit count n * 10 ^ (count - 1) : ℕ) : ℚ) := by
          push_cast
          ring
      _ ≤ n := by exact_mod_cast significantUnit_mul_le hcount hge

end significant

end Foundation
