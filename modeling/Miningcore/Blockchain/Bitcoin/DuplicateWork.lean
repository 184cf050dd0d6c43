import Miningcore.Blockchain.Bitcoin.BitcoinJob
import Miningcore.Foundation.Registry

/-!
# Work credited twice

The registry of a Bitcoin job keeps the texts of a submission, and the coinbase
and the header are made of what the texts are read as. Plain digits are read in
one way only.
-/

namespace Miningcore.Bitcoin

open Foundation

/-- Plain digits, as the pool and well-behaved miners write them: the extranonces in whole bytes,
the time and the nonce in eight digits. -/
structure Submission.IsPlain (submission : Submission) : Prop where
  extraNonce1 : ∀ c ∈ submission.context.extraNonce1, isHexDigit c
  evenExtraNonce1 : Even submission.context.extraNonce1.length
  extraNonce2 : ∀ c ∈ submission.extraNonce2, isHexDigit c
  evenExtraNonce2 : Even submission.extraNonce2.length
  nTime : ∀ c ∈ submission.nTime, isHexDigit c
  nonce : ∀ c ∈ submission.nonce, isHexDigit c

namespace BitcoinJob

variable (job : BitcoinJob)

/-- The coinbase and the header of a submission. -/
def work (submission : Submission) (numbers : Numbers) : Bytes × Bytes :=
  let coinbase := job.serializeCoinbase submission.context.extraNonce1 submission.extraNonce2
  (coinbase, job.serializeHeader (job.coinbaseHasher coinbase) numbers.nTime numbers.nonce
    submission.context.versionRollingMask (some numbers.versionBits))

/-- The coinbases and headers of the accepted shares, in the order of the submissions. -/
def acceptedWork : List Submission → JobState → List (Bytes × Bytes)
  | [], _ => []
  | submission :: rest, state =>
      match job.checkSubmission submission, job.processShare submission state with
      | .ok numbers, (state, .ok _) => job.work submission numbers :: acceptedWork rest state
      | _, (state, _) => acceptedWork rest state

/-- What is registered. -/
def submissionKey (submission : Submission) : Option (List Char) :=
  match job.checkSubmission submission with
  | .error _ => none
  | .ok _ => some (ignoringCase (submission.context.extraNonce1 ++ submission.extraNonce2 ++
      submission.nTime ++ submission.nonce))

/-- The work of a submission that is good enough for a share. -/
def goodWork (submission : Submission) : Option (Bytes × Bytes) :=
  match job.checkSubmission submission with
  | .error _ => none
  | .ok numbers =>
      if (job.processShareInternal submission.context submission.extraNonce2 numbers.nTime
          numbers.nonce (some numbers.versionBits)).toOption.isSome then
        some (job.work submission numbers)
      else none

variable {job} {submission : Submission}

theorem acceptedWork_eq_creditedValues (submissions : List Submission) (state : JobState) :
    job.acceptedWork submissions state =
      creditedValues job.submissionKey job.goodWork submissions state.submissions := by
  induction submissions generalizing state with
  | nil => rfl
  | cons submission rest ih =>
      rw [acceptedWork, creditedValues, processShare, submissionKey, goodWork]
      cases hcheck : job.checkSubmission submission with
      | error exception => simp only [ih]
      | ok numbers =>
          simp only [registerSubmit]
          by_cases hmem : ignoringCase (submission.context.extraNonce1 ++
              submission.extraNonce2 ++ submission.nTime ++ submission.nonce) ∈ state.submissions
          · simp only [hmem, if_true, ih]
          · simp only [hmem, if_false]
            cases hshare : job.processShareInternal submission.context submission.extraNonce2
                numbers.nTime numbers.nonce (some numbers.versionBits) with
            | error exception => simp [ih, Except.toOption]
            | ok result => simp [ih, Except.toOption]

/-- What a submission that passes the checks looks like. -/
theorem of_checkSubmission {numbers : Numbers} (h : job.checkSubmission submission = .ok numbers) :
    submission.nTime.length = 8 ∧ submission.nonce.length = 8 ∧
      parseHexNumber 32 submission.nTime = .ok numbers.nTime ∧
      parseHexNumber 32 submission.nonce = .ok numbers.nonce := by
  rw [checkSubmission] at h
  split at h
  · cases h
  · split at h
    · cases h
    · rename_i htime
      split at h
      · cases h
      · rename_i nTime hnTime
        split at h
        · cases h
        · split at h
          · cases h
          · rename_i hlength
            split at h
            · cases h
            · rename_i nonce hnonce
              split at h
              · cases h
              · cases h
                exact ⟨not_not.mp htime, not_not.mp hlength, hnTime, hnonce⟩

theorem parseHexNumber_of_length {s : List Char} (hlength : s.length = 8)
    (hdigits : ∀ c ∈ s, isHexDigit c) : parseHexNumber 32 s = .ok (hexValue s) := by
  apply parseHexNumber_of_isHexDigit _ hdigits
  · rw [hlength]
    decide
  · rw [← List.length_pos_iff, hlength]
    decide

/-- The coinbase has the extranonces of plain submissions, up to the case. -/
theorem extraNonces_of_serializeCoinbase_eq {first second : Submission} (hfirst : first.IsPlain)
    (hsecond : second.IsPlain)
    (h : job.serializeCoinbase first.context.extraNonce1 first.extraNonce2 =
      job.serializeCoinbase second.context.extraNonce1 second.extraNonce2) :
    ignoringCase (first.context.extraNonce1 ++ first.extraNonce2) =
      ignoringCase (second.context.extraNonce1 ++ second.extraNonce2) := by
  simp only [serializeCoinbase, List.append_assoc, List.append_cancel_left_eq] at h
  rw [← List.append_assoc, ← List.append_assoc, List.append_cancel_right_eq,
    hexToByteArray_of_isHexDigit hfirst.extraNonce1,
    hexToByteArray_of_isHexDigit hfirst.extraNonce2,
    hexToByteArray_of_isHexDigit hsecond.extraNonce1,
    hexToByteArray_of_isHexDigit hsecond.extraNonce2, ← pairBytes_append hfirst.evenExtraNonce1,
    ← pairBytes_append hsecond.evenExtraNonce1] at h
  apply ignoringCase_eq_of_pairBytes_eq _ _ _ _ h
  · exact List.forall_mem_append.mpr ⟨hfirst.extraNonce1, hfirst.extraNonce2⟩
  · exact List.forall_mem_append.mpr ⟨hsecond.extraNonce1, hsecond.extraNonce2⟩
  · rw [List.length_append]
    exact hfirst.evenExtraNonce1.add hfirst.evenExtraNonce2
  · rw [List.length_append]
    exact hsecond.evenExtraNonce1.add hsecond.evenExtraNonce2

/-- Headers over one coinbase have the time and the nonce. -/
theorem numbers_of_serializeHeader_eq {coinbaseHash : Bytes} {nTime nTime' nonce nonce' : Nat}
    {mask mask' bits bits' : Option UInt32} (htime : nTime < 2 ^ 32) (htime' : nTime' < 2 ^ 32)
    (hnonce : nonce < 2 ^ 32) (hnonce' : nonce' < 2 ^ 32)
    (h : job.serializeHeader coinbaseHash nTime nonce mask bits =
      job.serializeHeader coinbaseHash nTime' nonce' mask' bits') :
    nTime = nTime' ∧ nonce = nonce' := by
  simp only [serializeHeader, List.append_assoc] at h
  obtain ⟨-, hrest⟩ := List.append_inj h
    (by rw [length_littleEndian, length_littleEndian])
  rw [List.append_cancel_left_eq, List.append_cancel_left_eq] at hrest
  obtain ⟨hnTime, hrest⟩ := List.append_inj hrest
    (by rw [length_littleEndian, length_littleEndian])
  rw [List.append_cancel_left_eq] at hrest
  exact ⟨littleEndian_inj (by omega) (by omega) hnTime,
    littleEndian_inj (by omega) (by omega) hrest⟩

theorem goodWork_eq_some_iff {coinbase header : Bytes} :
    job.goodWork submission = some (coinbase, header) ↔
      ∃ numbers, job.checkSubmission submission = .ok numbers ∧
        (job.processShareInternal submission.context submission.extraNonce2 numbers.nTime
          numbers.nonce (some numbers.versionBits)).toOption.isSome ∧
        job.work submission numbers = (coinbase, header) := by
  rw [goodWork]
  cases job.checkSubmission submission with
  | error exception => simp
  | ok numbers => simp

/-- No work is credited twice in a run of plain submissions. -/
theorem nodup_acceptedWork (job : BitcoinJob) (submissions : List Submission)
    (h : ∀ submission ∈ submissions, submission.IsPlain) :
    (job.acceptedWork submissions {}).Nodup := by
  rw [acceptedWork_eq_creditedValues]
  apply nodup_creditedValues
  rintro first hfirst second hsecond key key' ⟨coinbase, header⟩ hkey hkey' hgood hgood'
  have hplain := h first hfirst
  have hplain' := h second hsecond
  obtain ⟨numbers, hcheck, -, hwork⟩ := goodWork_eq_some_iff.mp hgood
  obtain ⟨numbers', hcheck', -, hwork'⟩ := goodWork_eq_some_iff.mp hgood'
  obtain ⟨htimeLength, hnonceLength, htime, hnonce⟩ := of_checkSubmission hcheck
  obtain ⟨htimeLength', hnonceLength', htime', hnonce'⟩ := of_checkSubmission hcheck'
  obtain ⟨hcoinbase, hheader⟩ := Prod.ext_iff.mp (hwork.trans hwork'.symm)
  have hextra := extraNonces_of_serializeCoinbase_eq hplain hplain' hcoinbase
  simp only [work] at hcoinbase hheader
  rw [hcoinbase] at hheader
  obtain ⟨hsameTime, hsameNonce⟩ := numbers_of_serializeHeader_eq (parseHexNumber_lt htime)
    (parseHexNumber_lt htime') (parseHexNumber_lt hnonce) (parseHexNumber_lt hnonce') hheader
  rw [parseHexNumber_of_length htimeLength hplain.nTime, Except.ok.injEq] at htime
  rw [parseHexNumber_of_length htimeLength' hplain'.nTime, Except.ok.injEq] at htime'
  rw [parseHexNumber_of_length hnonceLength hplain.nonce, Except.ok.injEq] at hnonce
  rw [parseHexNumber_of_length hnonceLength' hplain'.nonce, Except.ok.injEq] at hnonce'
  have htimeText := ignoringCase_eq_of_hexValue_eq hplain.nTime hplain'.nTime
    (htimeLength.trans htimeLength'.symm) (by rw [htime, htime', hsameTime])
  have hnonceText := ignoringCase_eq_of_hexValue_eq hplain.nonce hplain'.nonce
    (hnonceLength.trans hnonceLength'.symm) (by rw [hnonce, hnonce', hsameNonce])
  rw [submissionKey, hcheck, Option.some.injEq, ignoringCase_append, ignoringCase_append] at hkey
  rw [submissionKey, hcheck', Option.some.injEq, ignoringCase_append, ignoringCase_append] at hkey'
  rw [← hkey, ← hkey', hextra, htimeText, hnonceText]

/-- A submission in plain digits. -/
def plain (submission : Submission) (numbers : Numbers) : Submission :=
  { submission with
    extraNonce2 := toHexString (hexToByteArray submission.extraNonce2)
    nTime := hexText 8 numbers.nTime
    nonce := hexText 8 numbers.nonce }

theorem parseHexNumber_hexText {n : Nat} (h : n < 2 ^ 32) :
    parseHexNumber 32 (hexText 8 n) = .ok n := by
  have hlt : n < 16 ^ 8 := by omega
  rw [parseHexNumber_of_length (length_hexText 8 n) (isHexDigit_hexText 8 n),
    hexValue_hexText 8 n hlt]

theorem hexText_ne_nil (n : Nat) : hexText 8 n ≠ [] := by
  rw [← List.length_pos_iff, length_hexText]
  decide

/-- The plain digits pass the checks that the submission passed. -/
theorem checkSubmission_plain {numbers : Numbers}
    (h : job.checkSubmission submission = .ok numbers)
    (hextra : hexToByteArray submission.extraNonce2 ≠ []) :
    job.checkSubmission (plain submission numbers) = .ok numbers := by
  obtain ⟨htimeLength, hnonceLength, htime, hnonce⟩ := of_checkSubmission h
  have hempty : ¬ (submission.extraNonce2 = [] ∨ submission.nTime = [] ∨
      submission.nonce = []) := by
    intro hempty
    rw [checkSubmission, if_pos hempty] at h
    cases h
  have hplain : ¬ (toHexString (hexToByteArray submission.extraNonce2) = [] ∨
      hexText 8 numbers.nTime = [] ∨ hexText 8 numbers.nonce = []) := by
    have hpos := List.length_pos_iff.mpr hextra
    rw [← List.length_eq_zero_iff, length_toHexString, not_or, not_or]
    exact ⟨by omega, hexText_ne_nil _, hexText_ne_nil _⟩
  rw [checkSubmission, if_neg hempty, if_neg (not_not.mpr htimeLength), htime] at h
  rw [checkSubmission, plain, if_neg hplain, if_neg (not_not.mpr (length_hexText 8 _)),
    parseHexNumber_hexText (parseHexNumber_lt htime)]
  dsimp only at h ⊢
  split at h
  · cases h
  · rename_i hrange
    rw [if_neg hrange]
    rw [if_neg (not_not.mpr hnonceLength), hnonce] at h
    rw [if_neg (not_not.mpr (length_hexText 8 _)),
      parseHexNumber_hexText (parseHexNumber_lt hnonce)]
    exact h

section plain

variable (job) (submission) (numbers : Numbers)

theorem context_plain : (plain submission numbers).context = submission.context := rfl

theorem serializeCoinbase_plain :
    job.serializeCoinbase submission.context.extraNonce1 (plain submission numbers).extraNonce2 =
      job.serializeCoinbase submission.context.extraNonce1 submission.extraNonce2 := by
  rw [plain, serializeCoinbase, hexToByteArray_of_isHexDigit (isHexDigit_toHexString _),
    pairBytes_toHexString, serializeCoinbase]

theorem work_plain : job.work (plain submission numbers) numbers = job.work submission numbers := by
  rw [work, work, context_plain, serializeCoinbase_plain]

theorem processShareInternal_plain (nTime nonce : Nat) (versionBits : Option UInt32) :
    job.processShareInternal submission.context (plain submission numbers).extraNonce2 nTime nonce
        versionBits =
      job.processShareInternal submission.context submission.extraNonce2 nTime nonce
        versionBits := by
  rw [processShareInternal, processShareInternal, serializeCoinbase_plain]

/-- Texts that differ from the plain ones in case only are plain. -/
theorem isPlain_of_ignoringCase_eq
    (hextra1 : ∀ c ∈ submission.context.extraNonce1, isHexDigit c)
    (heven : Even submission.context.extraNonce1.length) (htime : submission.nTime.length = 8)
    (hnonce : submission.nonce.length = 8)
    (h : ignoringCase (submission.context.extraNonce1 ++ submission.extraNonce2 ++
        submission.nTime ++ submission.nonce) =
      ignoringCase (submission.context.extraNonce1 ++ (plain submission numbers).extraNonce2 ++
        (plain submission numbers).nTime ++ (plain submission numbers).nonce)) :
    submission.IsPlain := by
  have hplain : ∀ c ∈ submission.context.extraNonce1 ++ (plain submission numbers).extraNonce2 ++
      (plain submission numbers).nTime ++ (plain submission numbers).nonce, isHexDigit c := by
    simp only [List.forall_mem_append, plain]
    exact ⟨⟨⟨hextra1, isHexDigit_toHexString _⟩, isHexDigit_hexText 8 _⟩, isHexDigit_hexText 8 _⟩
  have hdigits := isHexDigit_of_ignoringCase_eq hplain h
  simp only [List.forall_mem_append] at hdigits
  have hlength := length_eq_of_ignoringCase_eq h
  simp only [List.length_append, plain, length_toHexString, length_hexText] at hlength
  refine ⟨hextra1, heven, hdigits.1.1.2, ?_, hdigits.1.2, hdigits.2⟩
  rw [Nat.even_iff]
  omega

end plain

/-- Work in any other texts is credited besides the one in plain digits. -/
theorem acceptedWork_plain {coinbase header : Bytes}
    (hgood : job.goodWork submission = some (coinbase, header))
    (hextra1 : ∀ c ∈ submission.context.extraNonce1, isHexDigit c)
    (heven : Even submission.context.extraNonce1.length)
    (hextra : hexToByteArray submission.extraNonce2 ≠ []) (h : ¬ submission.IsPlain) :
    ∃ numbers, job.acceptedWork [plain submission numbers, submission] {} =
      [(coinbase, header), (coinbase, header)] := by
  obtain ⟨numbers, hcheck, hshare, hwork⟩ := goodWork_eq_some_iff.mp hgood
  refine ⟨numbers, ?_⟩
  have hcheck' := checkSubmission_plain hcheck hextra
  obtain ⟨htime, hnonce, -, -⟩ := of_checkSubmission hcheck
  have hgood' : job.goodWork (plain submission numbers) = some (coinbase, header) := by
    rw [goodWork_eq_some_iff]
    refine ⟨numbers, hcheck', ?_, ?_⟩
    · rw [context_plain, processShareInternal_plain]
      exact hshare
    · rw [work_plain]
      exact hwork
  have hkey : job.submissionKey (plain submission numbers) = some (ignoringCase
      (submission.context.extraNonce1 ++ (plain submission numbers).extraNonce2 ++
        (plain submission numbers).nTime ++ (plain submission numbers).nonce)) := by
    rw [submissionKey, hcheck', context_plain]
  have hkey' : job.submissionKey submission = some (ignoringCase
      (submission.context.extraNonce1 ++ submission.extraNonce2 ++ submission.nTime ++
        submission.nonce)) := by
    rw [submissionKey, hcheck]
  rw [acceptedWork_eq_creditedValues]
  apply creditedValues_pair hkey hkey' _ hgood' hgood
  exact fun hsame =>
    h (isPlain_of_ignoringCase_eq submission numbers hextra1 heven htime hnonce hsame)

namespace OddLength

/-- A job that takes every header for a share. -/
def easyJob : BitcoinJob where
  height := 1
  version := 0x20000000
  curTime := 0
  previousBlockhash := List.replicate 32 0
  bits := [0xff, 0xff, 0, 0x1d]
  coinbaseInitial := []
  coinbaseFinal := []
  merkleSteps := []
  transactions := []
  networkDifficulty := 1
  shareMultiplier := 1
  blockTargetValue := 0
  coinbaseHasher := id
  doubleDigest := id
  headerHasher _ _ := 1
  blockHasher _ _ := ""
  isLow _ _ := false
  shareDiff _ := ""

def submit (extraNonce2 nonce : String) : Submission where
  context := { difficulty := 1, extraNonce1 := "10000001".toList }
  extraNonce2 := extraNonce2.toList
  nTime := "00000001".toList
  nonce := nonce.toList
  now := 0

end OddLength

/-- The last of an odd number of characters is not in the coinbase. -/
theorem not_nodup_acceptedWork : ¬ (OddLength.easyJob.acceptedWork
    [OddLength.submit "00000000" "00000001", OddLength.submit "000000000" "00000001"]
    {}).Nodup := by
  decide +kernel

theorem nodup_acceptedWork_cases : (OddLength.easyJob.acceptedWork
    [OddLength.submit "0000000A" "0000000b", OddLength.submit "0000000a" "0000000B",
      OddLength.submit "0000000a" "0000000c"] {}).Nodup := by
  apply nodup_acceptedWork
  intro submission hmem
  rw [List.mem_cons, List.mem_cons, List.mem_singleton] at hmem
  obtain rfl | rfl | rfl := hmem <;> constructor <;>
    first | exact List.all_eq_true.mp (by decide +kernel) | decide +kernel

end BitcoinJob

end Miningcore.Bitcoin
