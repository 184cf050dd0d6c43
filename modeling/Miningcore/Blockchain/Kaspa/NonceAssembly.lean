import Mathlib.Data.List.Infix
import Miningcore.Blockchain.ExtraNonceProviderBase
import Miningcore.Blockchain.Kaspa.KaspaJob

/-!
# The nonces that workers complete

A worker is told an extranonce and how many bytes are left to it. The nonce it
submits has these bytes only, or all of the header's.

## Implementation notes

The widths are counted in digits by the job and in bytes by the manager.
-/

namespace Miningcore.Kaspa

open Foundation Blockchain

def extranoncePlaceHolderLength : ℤ := 8

def getExtraNonce1Size (extraNonce1Size : Option ℕ) : ℕ := extraNonce1Size.getD 2

/-- What a worker is told. -/
structure SubscriberData where
  extraNonce1 : List Char
  extraNonce2Size : ℤ

/-- `GetSubscriberData`, which assigns the extranonce of a worker. -/
def getSubscriberData {extraNonce1Size : ℕ} (provider : ExtraNonceProvider extraNonce1Size)
    (context : KaspaWorkerContext) :
    SubscriberData × KaspaWorkerContext × ExtraNonceProvider extraNonce1Size :=
  let (extraNonce1, provider) := provider.next
  ({ extraNonce1, extraNonce2Size := extranoncePlaceHolderLength - extraNonce1Size },
    { context with extraNonce1 }, provider)

/-- Digits for the bytes that are left to the worker or for all of a nonce. -/
def SubscriberData.Allows (data : SubscriberData) (nonce : List Char) : Prop :=
  (∀ c ∈ stripPrefix nonce, isHexDigit c) ∧
    ((stripPrefix nonce).length = 2 * data.extraNonce2Size ∨
      (stripPrefix nonce).length = nonceLength)

/-- A nonce of 64 bits with the extranonce in front and digits of the worker behind. -/
def KeepsRange (context : KaspaWorkerContext) (nonce : List Char) (headerNonce : ℕ) : Prop :=
  headerNonce < 2 ^ 64 ∧ ∃ remaining, remaining <:+ ignoringCase (stripPrefix nonce) ∧
    hexText 16 headerNonce = context.extraNonce1 ++ remaining

namespace KaspaJob

variable (job : KaspaJob) (context : KaspaWorkerContext) (nonce : List Char)

/-- A submission that is no duplicate ends with the share of a header's nonce. -/
def HashesWith (headerNonce : ℕ) : Prop :=
  ∀ state, job.processShare context nonce state =
    match registerSubmit state (fullNonce context nonce) with
    | none => (state, .error (.stratum .duplicateShare "duplicate share"))
    | some state => ({ state with headerNonce }, job.hashShare context headerNonce)

/-- The job assembles a nonce in the worker's range, and never fails to. -/
def Assembles : Prop :=
  ∃ headerNonce, job.HashesWith context nonce headerNonce ∧ KeepsRange context nonce headerNonce

end KaspaJob

/-- A nonce with the extranonce in front, or one to be completed whose extranonce is half of the
header's nonce or zero. -/
def WellPlaced (context : KaspaWorkerContext) (nonce : List Char) : Prop :=
  nonce ≠ [] ∧
    if (stripPrefix nonce).length + context.extraNonce1.length ≤ 16 then
      8 ≤ context.extraNonce1.length ∨ hexValue context.extraNonce1 = 0
    else context.extraNonce1 <+: ignoringCase (stripPrefix nonce)

instance instDecidableWellPlaced (context : KaspaWorkerContext) (nonce : List Char) :
    Decidable (WellPlaced context nonce) :=
  inferInstanceAs (Decidable (_ ∧ _))

variable {job : KaspaJob} {context : KaspaWorkerContext} {nonce : List Char} {headerNonce : ℕ}

/-- The share of a header is refused for its difficulty only. -/
theorem hashShare_ne_parse (exception : ParseException) :
    job.hashShare context headerNonce ≠ .error (.parse exception) := by
  rw [KaspaJob.hashShare]
  split
  · simp
  · simp

/-- The nonce of the header is the number that is read from the completed digits. -/
theorem hashesWith_iff :
    job.HashesWith context nonce headerNonce ↔
      nonce ≠ [] ∧ convertToUInt64 (fullNonce context nonce) = .ok headerNonce := by
  constructor
  · intro h
    -- the first submission is no duplicate
    have hfirst := h {}
    rw [KaspaJob.processShare] at hfirst
    split at hfirst
    · simp [registerSubmit] at hfirst
    · rename_i hempty
      refine ⟨hempty, ?_⟩
      simp only [registerSubmit, KaspaJob.processShareInternal] at hfirst
      cases hconvert : convertToUInt64 (fullNonce context nonce) with
      | error exception =>
          simp only [hconvert] at hfirst
          exact absurd (congrArg Prod.snd hfirst).symm (hashShare_ne_parse exception)
      | ok converted =>
          simp only [hconvert] at hfirst
          exact congrArg Except.ok (congrArg (JobState.headerNonce ∘ Prod.fst) hfirst)
  · rintro ⟨hempty, hconvert⟩ state
    rw [KaspaJob.processShare, if_neg hempty]
    cases hregister : registerSubmit state (fullNonce context nonce) with
    | none => simp [hregister]
    | some registered => simp [hregister, KaspaJob.processShareInternal, hconvert]

theorem length_padRight (width : ℕ) (c : Char) (s : List Char) :
    (padRight width c s).length = max width s.length := by
  rw [padRight, List.length_append, List.length_replicate]
  omega

/-- Zeros behind the digits. -/
theorem hexValue_padRight (width : ℕ) (s : List Char) :
    hexValue (padRight width '0' s) = hexValue s * 16 ^ (width - s.length) := by
  rw [padRight, hexValue_append, hexValue_replicate_zero, List.length_replicate, add_zero]

theorem isHexDigit_padRight {width : ℕ} {s : List Char} (h : ∀ c ∈ s, isHexDigit c) :
    ∀ c ∈ padRight width '0' s, isHexDigit c := by
  intro c hc
  obtain hc | hc := List.mem_append.mp hc
  · exact h c hc
  · rw [(List.mem_replicate.mp hc).2]
    decide

section placement

variable (hextra : ∀ c ∈ context.extraNonce1, isHexDigit c)
  (hlower : ignoringCase context.extraNonce1 = context.extraNonce1)
  (hdigits : ∀ c ∈ stripPrefix nonce, isHexDigit c)

include hextra hlower hdigits in
/-- The digits left to a worker have one place behind its extranonce. -/
theorem keepsRange_iff_of_rest
    (hlength : (stripPrefix nonce).length + context.extraNonce1.length = 16) :
    KeepsRange context nonce headerNonce ↔
      hexValue context.extraNonce1 * 16 ^ (stripPrefix nonce).length +
        hexValue (stripPrefix nonce) = headerNonce := by
  have hall : ∀ c ∈ context.extraNonce1 ++ stripPrefix nonce, isHexDigit c := by
    intro c hc
    obtain hc | hc := List.mem_append.mp hc
    · exact hextra c hc
    · exact hdigits c hc
  have hfull : (context.extraNonce1 ++ stripPrefix nonce).length = 16 := by
    rw [List.length_append, add_comm, hlength]
  have htext : ignoringCase (context.extraNonce1 ++ stripPrefix nonce) =
      context.extraNonce1 ++ ignoringCase (stripPrefix nonce) := by
    rw [ignoringCase_append, hlower]
  rw [← hexValue_append]
  constructor
  · rintro ⟨hbits, remaining, hsuffix, hremaining⟩
    have hsame : remaining = ignoringCase (stripPrefix nonce) := by
      apply hsuffix.eq_of_length
      have hlengths := congrArg List.length hremaining
      rw [length_hexText, List.length_append] at hlengths
      rw [length_ignoringCase]
      omega
    rw [hsame, ← htext, hexText_eq_iff hbits hall] at hremaining
    exact hremaining.2
  · rintro rfl
    have hbits := hexValue_lt hall
    rw [hfull] at hbits
    refine ⟨hbits, ignoringCase (stripPrefix nonce), List.suffix_rfl, ?_⟩
    rw [← htext, hexText_eq_iff hbits hall]
    exact ⟨hfull, rfl⟩

include hextra hdigits in
/-- The number that is read when the extranonce is completed to the rest of the width. -/
theorem hashesWith_iff_of_rest
    (hlength : (stripPrefix nonce).length + context.extraNonce1.length = 16) :
    job.HashesWith context nonce headerNonce ↔ nonce ≠ [] ∧ headerNonce < 2 ^ 64 ∧
      hexValue context.extraNonce1 *
          16 ^ (16 - context.extraNonce1.length - context.extraNonce1.length) *
            16 ^ (stripPrefix nonce).length + hexValue (stripPrefix nonce) = headerNonce := by
  have hall : ∀ c ∈ fullNonce context nonce, isHexDigit c := by
    intro c hc
    rw [fullNonce_of_le hlength.le, List.mem_append] at hc
    obtain hc | hc := hc
    · exact isHexDigit_padRight hextra c hc
    · exact hdigits c hc
  have hfull : fullNonce context nonce ≠ [] := by
    have hwidth := length_padRight (16 - context.extraNonce1.length) '0' context.extraNonce1
    rw [← List.length_pos_iff, fullNonce_of_le hlength.le, List.length_append, hwidth]
    omega
  rw [hashesWith_iff, convertToUInt64_eq_ok_iff hfull hall, fullNonce_of_le hlength.le,
    hexValue_append, hexValue_padRight]
  refine and_congr_right fun _ => ⟨?_, ?_⟩
  · rintro ⟨hbits, rfl⟩
    exact ⟨hbits, rfl⟩
  · rintro ⟨hbits, rfl⟩
    exact ⟨hbits, rfl⟩

include hextra hlower hdigits in
/-- Zeros that are put between the extranonce and the digits move the extranonce. -/
theorem assembles_iff_of_rest
    (hlength : (stripPrefix nonce).length + context.extraNonce1.length = 16) :
    job.Assembles context nonce ↔ nonce ≠ [] ∧
      (8 ≤ context.extraNonce1.length ∨ hexValue context.extraNonce1 = 0) := by
  constructor
  · rintro ⟨headerNonce, hhashes, hkeeps⟩
    obtain ⟨hempty, -, hread⟩ := (hashesWith_iff_of_rest hextra hdigits hlength).mp hhashes
    have hplace := (keepsRange_iff_of_rest hextra hlower hdigits hlength).mp hkeeps
    refine ⟨hempty, ?_⟩
    rw [← hplace, Nat.add_right_cancel_iff, Nat.mul_left_inj (by positivity)] at hread
    by_contra hmoved
    rw [not_or] at hmoved
    have hpadded : 16 ^ (16 - context.extraNonce1.length - context.extraNonce1.length) ≠ 1 := by
      apply (Nat.one_lt_pow _ (by decide)).ne'
      omega
    exact hpadded (Nat.eq_of_mul_eq_mul_left (Nat.pos_of_ne_zero hmoved.2)
      (hread.trans (mul_one _).symm))
  · rintro ⟨hempty, hplace⟩
    have hread : hexValue context.extraNonce1 *
        16 ^ (16 - context.extraNonce1.length - context.extraNonce1.length) =
          hexValue context.extraNonce1 := by
      obtain hwide | hzero := hplace
      · rw [show 16 - context.extraNonce1.length - context.extraNonce1.length = 0 by omega,
          pow_zero, mul_one]
      · rw [hzero, zero_mul]
    have hkeeps := (keepsRange_iff_of_rest hextra hlower hdigits hlength).mpr rfl
    refine ⟨_, (hashesWith_iff_of_rest hextra hdigits hlength).mpr ⟨hempty, hkeeps.1, ?_⟩, hkeeps⟩
    rw [hread]

include hdigits in
/-- All the digits of a nonce are taken as they are. -/
theorem assembles_iff_of_full (hlength : (stripPrefix nonce).length = 16)
    (hlong : 0 < context.extraNonce1.length) :
    job.Assembles context nonce ↔
      nonce ≠ [] ∧ context.extraNonce1 <+: ignoringCase (stripPrefix nonce) := by
  have hfull : fullNonce context nonce = stripPrefix nonce := fullNonce_of_lt (by omega)
  have hempty : stripPrefix nonce ≠ [] := by
    rw [← List.length_pos_iff, hlength]
    decide
  have htext : hexText 16 (hexValue (stripPrefix nonce)) = ignoringCase (stripPrefix nonce) := by
    rw [← hlength, hexText_hexValue hdigits]
  have hbits : hexValue (stripPrefix nonce) < 2 ^ 64 := by
    have hlt := hexValue_lt hdigits
    rwa [hlength] at hlt
  rw [KaspaJob.Assembles]
  simp only [hashesWith_iff, hfull, convertToUInt64_eq_ok_iff hempty hdigits]
  constructor
  · rintro ⟨_, ⟨hnonce, -, rfl⟩, -, remaining, -, hremaining⟩
    exact ⟨hnonce, remaining, by rw [← hremaining, htext]⟩
  · rintro ⟨hnonce, remaining, hremaining⟩
    exact ⟨_, ⟨hnonce, hbits, rfl⟩, hbits, remaining, ⟨_, hremaining⟩, by rw [htext, hremaining]⟩

end placement

section issued

variable {extraNonce1Size : ℕ} (provider : ExtraNonceProvider extraNonce1Size)
  (worker : KaspaWorkerContext)

theorem extraNonce1_ne_nil_getSubscriberData :
    (getSubscriberData provider worker).2.1.extraNonce1 ≠ [] :=
  provider.next_ne_nil

/-- Of one byte or more, the extranonce has the digits of its bytes. -/
theorem extraNonce1_getSubscriberData (hsize : 0 < extraNonce1Size) :
    ∃ value, (getSubscriberData provider worker).2.1.extraNonce1 =
      hexText (extraNonce1Size * 2) value :=
  ⟨_, ExtraNonceProvider.encode_eq hsize _ _⟩

theorem length_extraNonce1_getSubscriberData (hsize : 0 < extraNonce1Size) :
    (getSubscriberData provider worker).2.1.extraNonce1.length = extraNonce1Size * 2 := by
  obtain ⟨value, hvalue⟩ := extraNonce1_getSubscriberData provider worker hsize
  rw [hvalue, length_hexText]

end issued

/-- A worker that keeps to what it was told gets a nonce of its range exactly when its nonce is well
placed. -/
theorem assembles_iff (job : KaspaJob) (extraNonce1Size : Option ℕ)
    (provider : ExtraNonceProvider (getExtraNonce1Size extraNonce1Size))
    (worker : KaspaWorkerContext) (nonce : List Char)
    (h : (getSubscriberData provider worker).1.Allows nonce) :
    job.Assembles (getSubscriberData provider worker).2.1 nonce ↔
      WellPlaced (getSubscriberData provider worker).2.1 nonce := by
  have hpresent := List.length_pos_iff.mpr (extraNonce1_ne_nil_getSubscriberData provider worker)
  obtain ⟨hdigits, hlength⟩ := h
  have hannounced : (getSubscriberData provider worker).1.extraNonce2Size =
      8 - getExtraNonce1Size extraNonce1Size := rfl
  rw [hannounced, nonceLength] at hlength
  rw [WellPlaced]
  split
  · rename_i hshort
    -- Without a size the rest would be all of a nonce, and nothing would be left to complete.
    have hsize : 0 < getExtraNonce1Size extraNonce1Size := by omega
    have hextraLength := length_extraNonce1_getSubscriberData provider worker hsize
    obtain ⟨value, hvalue⟩ := extraNonce1_getSubscriberData provider worker hsize
    exact assembles_iff_of_rest (hvalue ▸ isHexDigit_hexText _ _)
      (by rw [hvalue, ignoringCase_hexText]) hdigits (by omega)
  · rename_i hlong
    refine assembles_iff_of_full hdigits ?_ hpresent
    obtain hsize | hsize := Nat.eq_zero_or_pos (getExtraNonce1Size extraNonce1Size)
    · omega
    · have hextraLength := length_extraNonce1_getSubscriberData provider worker hsize
      omega

namespace Completed

/-- A job that takes every nonce for a share. -/
def easyJob : KaspaJob where
  daaScore := 1
  difficulty := 1
  shareMultiplier := 1
  blockTargetValue := 0
  hashCoinbase _ := 1
  hashHeader _ := ""
  isLow _ _ := false
  shareDiff _ := ""

def worker : KaspaWorkerContext := { difficulty := 1, extraNonce1 := [] }

/-- The provider of a pool that is configured with a size of extranonces. -/
def provider (extraNonce1Size : Option ℕ) :
    ExtraNonceProvider (getExtraNonce1Size extraNonce1Size) := .initial _ 1

end Completed

open Completed in
/-- The extranonce `1001` is completed to twelve digits, and the six bytes of the worker make them
twenty-four. -/
theorem not_forall_assembles :
    ¬∀ (job : KaspaJob) (extraNonce1Size : Option ℕ)
        (provider : ExtraNonceProvider (getExtraNonce1Size extraNonce1Size))
        (worker : KaspaWorkerContext) (nonce : List Char),
      (getSubscriberData provider worker).1.Allows nonce →
        job.Assembles (getSubscriberData provider worker).2.1 nonce := by
  intro h
  obtain ⟨headerNonce, hhashes, -⟩ := h easyJob none (provider none) worker "0123456789ab".toList
    ⟨List.all_eq_true.mp (by decide +kernel), Or.inl (by decide +kernel)⟩
  have hoverflow : convertToUInt64 (fullNonce (getSubscriberData (provider none) worker).2.1
      "0123456789ab".toList) = .error .overflow := by
    decide +kernel
  rw [hashesWith_iff, hoverflow] at hhashes
  cases hhashes.2

open Completed in
theorem assembles_fourBytes :
    easyJob.Assembles (getSubscriberData (provider (some 4)) worker).2.1 "0xDEADBEEF".toList :=
  (assembles_iff easyJob (some 4) (provider (some 4)) worker "0xDEADBEEF".toList
    ⟨List.all_eq_true.mp (by decide +kernel), Or.inl (by decide +kernel)⟩).mpr (by decide +kernel)

end Miningcore.Kaspa
