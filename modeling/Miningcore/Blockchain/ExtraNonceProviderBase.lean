import Mathlib.Tactic.Ring
import Miningcore.Extensions.HexParsing

/-!
# Extranonces of the connections of a pool

The provider numbers the subscriptions. The number of an instance stands in the
high bits of every extranonce and a counter in the low ones. The counter starts
again when its bits are used up. Of more than eight bytes it does so before, since
a shift of 64 bits takes only the low bits of its count. Of no bytes a text has as
many digits as its number all the same.
-/

namespace Miningcore.Blockchain

open Foundation

def idBits : ℕ := 4

def idShift (extranonceBytes : ℕ) : ℕ := extranonceBytes * 8 - idBits

/-- The low six bits of the shift, by which a number of 64 bits is shifted. -/
def shiftCount (extranonceBytes : ℕ) : ℕ := (((extranonceBytes : ℤ) * 8 - idBits) % 64).toNat

def nonceMax (extranonceBytes : ℕ) : ℕ := 2 ^ shiftCount extranonceBytes - 1

/-- The state of a provider. -/
structure ExtraNonceProvider (extranonceBytes : ℕ) where
  id : ℕ
  counter : ℕ
  id_lt : id < 2 ^ idBits
  counter_le : counter ≤ nonceMax extranonceBytes

/-- The format of a number in a number of digits, or in its own. -/
def hexFormat (digits value : ℕ) : List Char :=
  if digits = 0 then Nat.toDigits 16 value else hexText digits value

namespace ExtraNonceProvider

variable {extranonceBytes : ℕ}

/-- A provider of an instance, whose number is cut to its bits. -/
def initial (extranonceBytes instanceId : ℕ) : ExtraNonceProvider extranonceBytes where
  id := instanceId % 2 ^ idBits
  counter := 0
  id_lt := Nat.mod_lt _ (by decide)
  counter_le := Nat.zero_le _

variable (provider : ExtraNonceProvider extranonceBytes)

/-- The text of the extranonce with a value of the counter. -/
def encode (extranonceBytes id counter : ℕ) : List Char :=
  hexFormat (extranonceBytes * 2) (id <<< shiftCount extranonceBytes ||| counter)

theorem encode_eq (hbytes : 0 < extranonceBytes) (id counter : ℕ) :
    encode extranonceBytes id counter =
      hexText (extranonceBytes * 2) (id <<< shiftCount extranonceBytes ||| counter) :=
  if_neg (by omega)

def nextCounter : ℕ :=
  if provider.counter + 1 > nonceMax extranonceBytes then 0 else provider.counter + 1

theorem nextCounter_le : provider.nextCounter ≤ nonceMax extranonceBytes := by
  rw [nextCounter]
  split <;> omega

theorem nextCounter_eq_mod :
    provider.nextCounter = (provider.counter + 1) % (nonceMax extranonceBytes + 1) := by
  have hle := provider.counter_le
  rw [nextCounter]
  split
  · rw [show provider.counter + 1 = nonceMax extranonceBytes + 1 by omega, Nat.mod_self]
  · rw [Nat.mod_eq_of_lt (by omega)]

/-- The next extranonce and the provider after it. -/
def next : List Char × ExtraNonceProvider extranonceBytes :=
  (encode extranonceBytes provider.id provider.nextCounter,
    { provider with
      counter := provider.nextCounter
      counter_le := provider.nextCounter_le })

theorem next_ne_nil : provider.next.1 ≠ [] := by
  obtain rfl | hbytes := Nat.eq_zero_or_pos extranonceBytes
  · exact Nat.toDigits_ne_nil
  · rw [next, encode_eq hbytes, ← List.length_pos_iff, length_hexText]
    omega

theorem isHexPairs_next (hbytes : 0 < extranonceBytes) : IsHexPairs provider.next.1 := by
  rw [next, encode_eq hbytes]
  refine ⟨?_, isHexDigit_hexText _ _⟩
  rw [length_hexText]
  exact even_two.mul_left _

end ExtraNonceProvider

section encoding

variable {extranonceBytes id counter counter' : ℕ}

theorem shiftCount_le (hbytes : 0 < extranonceBytes) :
    idBits + shiftCount extranonceBytes ≤ 4 * (extranonceBytes * 2) := by
  rw [shiftCount, idBits]
  omega

theorem shiftCount_eq_idShift (hbytes : 0 < extranonceBytes) (hword : extranonceBytes ≤ 8) :
    shiftCount extranonceBytes = idShift extranonceBytes := by
  rw [shiftCount, idShift, idBits]
  omega

theorem lt_of_le_nonceMax (h : counter ≤ nonceMax extranonceBytes) :
    counter < 2 ^ shiftCount extranonceBytes := by
  have hpos := Nat.two_pow_pos (shiftCount extranonceBytes)
  rw [nonceMax] at h
  omega

/-- The two parts of an extranonce have places of their own. -/
theorem shiftLeft_or_eq (id : ℕ) (hcounter : counter ≤ nonceMax extranonceBytes) :
    id <<< shiftCount extranonceBytes ||| counter =
      id * 2 ^ shiftCount extranonceBytes + counter := by
  rw [← Nat.shiftLeft_add_eq_or_of_lt (lt_of_le_nonceMax hcounter), Nat.shiftLeft_eq]

theorem shiftLeft_or_lt (hbytes : 0 < extranonceBytes) (hid : id < 2 ^ idBits)
    (hcounter : counter ≤ nonceMax extranonceBytes) :
    id * 2 ^ shiftCount extranonceBytes + counter < 16 ^ (extranonceBytes * 2) := by
  have hlow := lt_of_le_nonceMax hcounter
  calc id * 2 ^ shiftCount extranonceBytes + counter
      < id * 2 ^ shiftCount extranonceBytes + 2 ^ shiftCount extranonceBytes := by omega
    _ = (id + 1) * 2 ^ shiftCount extranonceBytes := by ring
    _ ≤ 2 ^ idBits * 2 ^ shiftCount extranonceBytes := Nat.mul_le_mul_right _ hid
    _ = 2 ^ (idBits + shiftCount extranonceBytes) := (pow_add _ _ _).symm
    _ ≤ 2 ^ (4 * (extranonceBytes * 2)) := Nat.pow_le_pow_right (by omega) (shiftCount_le hbytes)
    _ = 16 ^ (extranonceBytes * 2) := by rw [pow_mul, show 2 ^ 4 = 16 from rfl]

/-- The value of an extranonce has its own place for each of the two parts. -/
theorem hexValue_encode (hbytes : 0 < extranonceBytes) (hid : id < 2 ^ idBits)
    (hcounter : counter ≤ nonceMax extranonceBytes) :
    hexValue (ExtraNonceProvider.encode extranonceBytes id counter) =
      id * 2 ^ shiftCount extranonceBytes + counter := by
  rw [ExtraNonceProvider.encode_eq hbytes, shiftLeft_or_eq id hcounter]
  exact hexValue_hexText _ _ (shiftLeft_or_lt hbytes hid hcounter)

/-- Different values of the counter have different texts. -/
theorem encode_inj (hbytes : 0 < extranonceBytes) (hid : id < 2 ^ idBits)
    (hcounter : counter ≤ nonceMax extranonceBytes)
    (hcounter' : counter' ≤ nonceMax extranonceBytes)
    (h : ExtraNonceProvider.encode extranonceBytes id counter =
      ExtraNonceProvider.encode extranonceBytes id counter') : counter = counter' := by
  have hvalue := congrArg hexValue h
  rw [hexValue_encode hbytes hid hcounter, hexValue_encode hbytes hid hcounter'] at hvalue
  omega

end encoding

/-!
## The extranonces of a run

The texts of a provider are those of its counter, and of providers of different
instances there are no two alike.
-/

def idMax : ℕ := 2 ^ idBits - 1

namespace ExtraNonceProvider

variable {extranonceBytes : ℕ}

/-- A provider of a given instance, or of one at random. -/
def create (extranonceBytes : ℕ) (instanceId : Option ℕ) (random : ℕ) :
    Except String (ExtraNonceProvider extranonceBytes) :=
  match instanceId with
  | some id =>
      if idMax < id then
        .error s!"Provided instance id too large to fit into {idBits} bits (limit {idMax})"
      else .ok (initial extranonceBytes id)
  | none => .ok (initial extranonceBytes random)

/-- The provider after some extranonces. -/
def after (provider : ExtraNonceProvider extranonceBytes) : ℕ → ExtraNonceProvider extranonceBytes
  | 0 => provider
  | calls + 1 => (provider.after calls).next.2

/-- The text of the extranonce after some others. -/
def text (provider : ExtraNonceProvider extranonceBytes) (calls : ℕ) : List Char :=
  (provider.after calls).next.1

section runs

variable (provider : ExtraNonceProvider extranonceBytes) (calls : ℕ)

theorem id_after : (provider.after calls).id = provider.id := by
  induction calls with
  | zero => rfl
  | succ calls ih => exact ih

theorem counter_after (h : provider.counter = 0) :
    (provider.after calls).counter = calls % (nonceMax extranonceBytes + 1) := by
  induction calls with
  | zero => rw [Nat.zero_mod]; exact h
  | succ calls ih =>
      change (provider.after calls).nextCounter = _
      rw [nextCounter_eq_mod, ih, Nat.mod_add_mod]

theorem text_eq (h : provider.counter = 0) :
    provider.text calls = encode extranonceBytes provider.id
      ((calls + 1) % (nonceMax extranonceBytes + 1)) := by
  change encode extranonceBytes (provider.after calls).id (provider.after calls).nextCounter = _
  rw [nextCounter_eq_mod, id_after, provider.counter_after calls h, Nat.mod_add_mod]

end runs

/-- What is promised of the extranonces of some bytes. -/
structure Partitions (extranonceBytes : ℕ) : Prop where
  distinct : ∀ instanceId random (provider : ExtraNonceProvider extranonceBytes),
    create extranonceBytes instanceId random = .ok provider → ∀ calls calls', calls < calls' →
      calls' < calls + 2 ^ idShift extranonceBytes → provider.text calls ≠ provider.text calls'
  digits : ∀ instanceId random (provider : ExtraNonceProvider extranonceBytes),
    create extranonceBytes instanceId random = .ok provider → ∀ calls,
      (provider.text calls).length = 2 * extranonceBytes ∧
        ∀ c ∈ provider.text calls, isHexDigit c
  disjoint : ∀ id id' random random' (provider provider' : ExtraNonceProvider extranonceBytes),
    create extranonceBytes (some id) random = .ok provider →
      create extranonceBytes (some id') random' = .ok provider' → id ≠ id' →
        ∀ calls calls', provider.text calls ≠ provider'.text calls'

section created

variable {instanceId : Option ℕ} {random : ℕ} {provider : ExtraNonceProvider extranonceBytes}

theorem exists_of_create (h : create extranonceBytes instanceId random = .ok provider) :
    ∃ id, provider = initial extranonceBytes id ∧
      ∀ given ∈ instanceId, given = id ∧ id ≤ idMax := by
  cases instanceId with
  | none =>
      refine ⟨random, (Except.ok.inj h).symm, fun _ hmem => ?_⟩
      exact absurd hmem (Option.not_mem_none _)
  | some id =>
      change (if idMax < id then _ else _) = _ at h
      split_ifs at h with hlarge
      refine ⟨id, (Except.ok.inj h).symm, fun given hmem => ?_⟩
      exact ⟨(Option.some.inj hmem).symm, not_lt.mp hlarge⟩

end created

/-- The extranonces are what is promised of them just from one byte to eight. -/
theorem partitions_iff (extranonceBytes : ℕ) :
    Partitions extranonceBytes ↔ 0 < extranonceBytes ∧ extranonceBytes ≤ 8 := by
  have hcreate (id : ℕ) (hid : id ≤ idMax) (extranonceBytes : ℕ) :
      create extranonceBytes (some id) 0 = .ok (initial extranonceBytes id) :=
    if_neg (not_lt.mpr hid)
  constructor
  · intro h
    have hbytes : 0 < extranonceBytes := by
      apply Nat.pos_of_ne_zero
      rintro rfl
      have hlength := (h.digits (some 0) 0 _ (hcreate 0 (Nat.zero_le _) 0) 0).1
      exact next_ne_nil _ (List.length_eq_zero_iff.mp hlength)
    refine ⟨hbytes, ?_⟩
    -- beyond eight bytes the counter starts again before all its bits are used
    by_contra hlarge
    have hperiod : nonceMax extranonceBytes + 1 = 2 ^ shiftCount extranonceBytes := by
      rw [nonceMax]
      exact Nat.sub_add_cancel (Nat.two_pow_pos _)
    have hshort : shiftCount extranonceBytes < idShift extranonceBytes := by
      rw [shiftCount, idShift, idBits]
      omega
    apply h.distinct (some 0) 0 _ (hcreate 0 (Nat.zero_le _) _) 0 (nonceMax extranonceBytes + 1)
      (Nat.succ_pos _)
    · rw [hperiod, Nat.zero_add]
      exact Nat.pow_lt_pow_right (by omega) hshort
    · rw [text_eq _ _ rfl, text_eq _ _ rfl, Nat.add_mod_left, Nat.zero_add]
  · rintro ⟨hbytes, hword⟩
    have hmod (calls : ℕ) : (calls + 1) % (nonceMax extranonceBytes + 1) ≤
        nonceMax extranonceBytes := Nat.le_of_lt_succ (Nat.mod_lt _ (Nat.succ_pos _))
    refine ⟨?_, ?_, ?_⟩
    · intro instanceId random provider h calls calls' hlt hnear heq
      obtain ⟨id, rfl, -⟩ := exists_of_create h
      rw [text_eq _ _ rfl, text_eq _ _ rfl] at heq
      have hsame := encode_inj hbytes (initial extranonceBytes id).id_lt (hmod _) (hmod _) heq
      have hperiod : nonceMax extranonceBytes + 1 = 2 ^ idShift extranonceBytes := by
        rw [nonceMax, shiftCount_eq_idShift hbytes hword]
        exact Nat.sub_add_cancel (Nat.two_pow_pos _)
      rw [hperiod] at hsame
      have hdivides : 2 ^ idShift extranonceBytes ∣ calls' + 1 - (calls + 1) :=
        Nat.dvd_of_mod_eq_zero (Nat.sub_mod_eq_zero_of_mod_eq hsame.symm)
      exact absurd (Nat.le_of_dvd (by omega) hdivides) (by omega)
    · intro instanceId random provider h calls
      obtain ⟨id, rfl, -⟩ := exists_of_create h
      rw [text_eq _ _ rfl, encode_eq hbytes]
      exact ⟨(length_hexText _ _).trans (Nat.mul_comm _ _), isHexDigit_hexText _ _⟩
    · intro id id' random random' provider provider' h h' hne calls calls' heq
      obtain ⟨named, rfl, hgiven⟩ := exists_of_create h
      obtain ⟨named', rfl, hgiven'⟩ := exists_of_create h'
      obtain ⟨rfl, hid⟩ := hgiven id rfl
      obtain ⟨rfl, hid'⟩ := hgiven' id' rfl
      rw [text_eq _ _ rfl, text_eq _ _ rfl] at heq
      have hvalue := congrArg hexValue heq
      rw [hexValue_encode hbytes (initial extranonceBytes id).id_lt (hmod _),
        hexValue_encode hbytes (initial extranonceBytes id').id_lt (hmod _)] at hvalue
      have hlow := lt_of_le_nonceMax (hmod calls)
      have hlow' := lt_of_le_nonceMax (hmod calls')
      have hids : (initial extranonceBytes id).id = (initial extranonceBytes id').id := by
        have hquotient := congrArg (· / 2 ^ shiftCount extranonceBytes) hvalue
        simpa only [Nat.mul_add_div (Nat.two_pow_pos _), Nat.mul_comm _ (2 ^ _),
          Nat.div_eq_of_lt hlow, Nat.div_eq_of_lt hlow', Nat.add_zero] using hquotient
      change id % 2 ^ idBits = id' % 2 ^ idBits at hids
      rw [idMax, idBits] at hid hid'
      rw [idBits] at hids
      omega

/-- Of nine bytes, the seventeenth extranonce is the first one again. -/
theorem not_partitions_nine :
    create 9 (some 1) 0 = .ok (initial 9 1) ∧
      (initial 9 1).text 0 = "000000000000000011".toList ∧
      (initial 9 1).text 16 = (initial 9 1).text 0 ∧ 16 < 2 ^ idShift 9 := by
  refine ⟨rfl, by decide +kernel, by decide +kernel, by decide +kernel⟩

end ExtraNonceProvider

end Miningcore.Blockchain
