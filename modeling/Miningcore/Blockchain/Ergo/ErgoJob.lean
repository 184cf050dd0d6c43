import Mathlib.Data.UInt
import Miningcore.Blockchain.ExtraNonceProviderBase
import Miningcore.Extensions.UnsignedArithmetic
import Miningcore.Stratum.Submission

/-!
# Shares of an Ergo job

A submission brings an extranonce, a time and a nonce, which is the worker's own
extranonce and what the miner has found. The nonce is hashed behind the message of
the block template. The time is registered in front of it. The results are taken from a
table whose size grows with the height.

## Implementation notes

What is computed from the bytes of the coinbase is a function of them. The registry
holds its texts without their case. Requests are those of subscribed workers, whose
extranonces come from the provider; in their parameters none stands for null.
-/

namespace Miningcore.Ergo

open Foundation Blockchain

structure ErgoWorkerContext extends WorkerDifficulty where
  extraNonce1 : List Char
  isHexPairs_extraNonce1 : IsHexPairs extraNonce1
  /-- The ids of the jobs that were sent to the worker last. -/
  validJobs : List (List Char)

structure ErgoJob where
  jobId : List Char
  height : ℕ
  msg : List Char
  b : ℕ
  difficulty : ℚ
  extraNonceSize : ℕ
  /-- The result of the bytes of a coinbase, as a number. -/
  hash : List UInt8 → ℕ
  /-- Whether the share-diff of a result is below 0.99 of a difficulty. -/
  isLow : ℕ → ℚ → Bool
  /-- The text of the share-diff of a result. -/
  shareDiff : ℕ → String

structure JobState where
  submissions : List (List Char) := []
deriving DecidableEq

def shareMultiplier : ℚ := 256

/-- `GetSubscriberData`, which assigns the extranonce of a worker. It has a size. -/
def getSubscriberData {extranonceBytes : ℕ} (hbytes : 0 < extranonceBytes)
    (provider : ExtraNonceProvider extranonceBytes) (context : ErgoWorkerContext) :
    ErgoWorkerContext × ExtraNonceProvider extranonceBytes :=
  ({ context with
      extraNonce1 := provider.next.1
      isHexPairs_extraNonce1 := provider.isHexPairs_next hbytes }, provider.next.2)

/-- `TryAdd` on the registry, which ignores the case. -/
def registerSubmit (nTime nonce : List Char) (state : JobState) : Option JobState :=
  let key := ignoringCase (nTime ++ nonce)
  if key ∈ state.submissions then none else some { submissions := key :: state.submissions }

namespace ErgoJob

variable (job : ErgoJob)

def serializeCoinbase (nonce : List Char) : List UInt8 :=
  hexToByteArray job.msg ++ hexToByteArray nonce

/-- The share of the bytes of a coinbase. -/
def hashShare (worker : WorkerDifficulty) (coinbase : List UInt8) :
    Except SubmitException MinedShare :=
  let fh := job.hash coinbase
  let isBlockCandidate := decide (fh < job.b)
  match stratumDifficulty worker isBlockCandidate (job.isLow fh) with
  | none => .error (.stratum .lowDifficultyShare s!"low difficulty share ({job.shareDiff fh})")
  | some difficulty => .ok {
      blockHeight := job.height
      networkDifficulty := some job.difficulty
      difficulty := difficulty / shareMultiplier
      isBlockCandidate }

def processShareInternal (worker : WorkerDifficulty) (nonce : List Char) :
    Except SubmitException MinedShare :=
  job.hashShare worker (job.serializeCoinbase nonce)

/-- The time and the nonce that are registered. -/
def checkSubmission (context : ErgoWorkerContext) (extraNonce2 nTime nonce : List Char) :
    Except SubmitException (List Char × List Char) :=
  if extraNonce2 = [] ∨ nTime = [] ∨ nonce = [] then .error .argument
  else if nonce.length ≠ context.extraNonce1.length + job.extraNonceSize * 2 then
    .error (.stratum .other "incorrect size of nonce")
  else if context.extraNonce1.isPrefixOf nonce then
    .ok (if nTime = "undefined".toList then [] else nTime, nonce)
  else
    .error (.stratum .other ("incorrect extraNonce2 in nonce (expected " ++
      String.ofList context.extraNonce1 ++ ", got " ++
      String.ofList (nonce.take context.extraNonce1.length) ++ ")"))

def processShare (context : ErgoWorkerContext) (extraNonce2 nTime nonce : List Char)
    (state : JobState) : JobState × Except SubmitException MinedShare :=
  match job.checkSubmission context extraNonce2 nTime nonce with
  | .error exception => (state, .error exception)
  | .ok (nTime, nonce) =>
      match registerSubmit nTime nonce state with
      | none => (state, .error (.stratum .duplicateShare "duplicate share"))
      | some state => (state, job.processShareInternal context.toWorkerDifficulty nonce)

variable {job}

/-- What is registered is the submitted nonce, in the length of all nonces of the worker. -/
theorem of_checkSubmission {context : ErgoWorkerContext} {extraNonce2 nTime nonce : List Char}
    {registered : List Char × List Char}
    (h : job.checkSubmission context extraNonce2 nTime nonce = .ok registered) :
    registered.2 = nonce ∧ Even nonce.length ∧ context.extraNonce1 <+: nonce := by
  rw [checkSubmission] at h
  split at h
  · cases h
  · split at h
    · cases h
    · rename_i hlength
      split at h
      · rename_i hstarts
        cases h
        refine ⟨rfl, ?_, List.isPrefixOf_iff_prefix.mp hstarts⟩
        rw [not_not.mp hlength, Nat.even_add]
        exact iff_of_true context.isHexPairs_extraNonce1.1 (even_two.mul_left _)
      · cases h

end ErgoJob

/-- A submission of a worker. -/
structure Submission where
  context : ErgoWorkerContext
  submitParams : List (Option (List Char))

/-- What a submission brings to a job. -/
structure SubmitParams where
  extraNonce2 : List Char
  nTime : List Char
  nonce : List Char
deriving DecidableEq

/-- The job that a submission names, which is one of those that were sent to its worker. -/
def Submission.params (submission : Submission) :
    Except SubmitException (List Char × SubmitParams) :=
  match submission.submitParams with
  | workerValue :: jobId :: extraNonce2 :: nTime :: nonce :: _ =>
      if (workerValue.getD []).all isWhiteSpace then
        .error (.stratum .other "missing or invalid workername")
      else
        match submission.context.validJobs.find? fun id => jobId = some id with
        | none => .error (.stratum .jobNotFound "job not found")
        | some id => .ok (id,
            { extraNonce2 := extraNonce2.getD []
              nTime := nTime.getD []
              nonce := nonce.getD [] })
  | _ => .error .indexOutOfRange

/-! ## The size of the table -/

def nBase : UInt32 := 2 ^ 26

def increaseStart : UInt32 := 600 * 1024

def increasePeriodForN : UInt32 := 50 * 1024

def nIncreasementHeightMax : UInt32 := 9216000

/-- `CalcN`, the size of the table at a height, in 32 bits. -/
def calcN (height : UInt32) : UInt32 :=
  let height := min nIncreasementHeightMax height
  if height < increaseStart then nBase
  else if nIncreasementHeightMax ≤ height then 2147387550
  else
    let iterationsNumber := (height - increaseStart) / increasePeriodForN + 1
    (fun step ↦ step / 100 * 105)^[iterationsNumber.toNat] nBase

def enlarged (size : ℕ) : ℕ := size / 100 * 105

/-- The same recurrence in unbounded integers. -/
def tableSize (height : ℕ) : ℕ :=
  let height := min 9216000 height
  if height < 614400 then 2 ^ 26
  else if 9216000 ≤ height then 2147387550
  else enlarged^[(height - 614400) / 51200 + 1] (2 ^ 26)

theorem enlarged_mono : Monotone enlarged := fun _ _ hle ↦
  Nat.mul_le_mul_right 105 (Nat.div_le_div_right hle)

theorem iterate_enlarged_mono : Monotone fun k ↦ enlarged^[k] (2 ^ 26) :=
  enlarged_mono.monotone_iterate_of_le_map (by decide)

/-- The size at a height is the unbounded one, at least the size at each lower height and
at most the final size. -/
structure SizeAgrees (height : UInt32) : Prop where
  toNat_eq : (calcN height).toNat = tableSize height.toNat
  le_of_le : ∀ lower ≤ height, calcN lower ≤ calcN height
  le_final : calcN height ≤ 2147387550

theorem min_height_of_lt {height : UInt32} (h : height < nIncreasementHeightMax) :
    min nIncreasementHeightMax height = height :=
  if_neg (UInt32.not_le.mpr h)

theorem calcN_of_lt {height : UInt32} (h : height < increaseStart) : calcN height = nBase := by
  have hmin := min_height_of_lt (UInt32.lt_trans h (by decide))
  simp only [calcN, hmin]
  exact if_pos h

theorem calcN_of_between {height : UInt32} (h : increaseStart ≤ height)
    (hlt : height < nIncreasementHeightMax) :
    calcN height =
      (fun step ↦ step / 100 * 105)^[(height.toNat - 614400) / 51200 + 1] nBase := by
  have hmin := min_height_of_lt hlt
  have hle : 614400 ≤ height.toNat := h
  have hround : ((height - increaseStart) / increasePeriodForN + 1).toNat =
      (height.toNat - 614400) / 51200 + 1 := by
    have hsize := height.toNat_lt
    rw [UInt32.toNat_add, UInt32.toNat_div, UInt32.toNat_sub_of_le _ _ h]
    change ((height.toNat - 614400) / 51200 + 1) % 2 ^ 32 = _
    omega
  simp only [calcN, hmin, hround]
  rw [if_neg (UInt32.not_lt.mpr h), if_neg (UInt32.not_le.mpr hlt)]

theorem tableSize_of_lt {height : ℕ} (h : height < 614400) : tableSize height = 2 ^ 26 := by
  simp only [tableSize]
  rw [if_pos (by omega)]

theorem tableSize_of_between {height : ℕ} (h : 614400 ≤ height) (hlt : height < 9216000) :
    tableSize height = enlarged^[(height - 614400) / 51200 + 1] (2 ^ 26) := by
  simp only [tableSize]
  rw [min_eq_right hlt.le, if_neg (by omega), if_neg (by omega)]

/-- The size after 71 steps is the last one below the final size. -/
theorem iterate_enlarged_le {k : ℕ} (hk : k ≤ 71) : enlarged^[k] (2 ^ 26) ≤ 2143944600 :=
  (iterate_enlarged_mono hk).trans (by decide +kernel)

theorem toNat_iterate {k : ℕ} (hk : k ≤ 71) :
    ((fun step : UInt32 ↦ step / 100 * 105)^[k] nBase).toNat = enlarged^[k] (2 ^ 26) := by
  apply value_iterate_of_lt UInt32.toNat (2 ^ 32) enlarged_mono
  · intro size hsize
    rw [UInt32.toNat_mul, UInt32.toNat_div]
    exact Nat.mod_eq_of_lt hsize
  · decide
  · exact (iterate_enlarged_le hk).trans_lt (by decide)

theorem toNat_calcN {height : UInt32} (h : height < 4249600) :
    (calcN height).toNat = tableSize height.toNat := by
  obtain hlow | hhigh := lt_or_ge height.toNat 614400
  · rw [calcN_of_lt hlow, tableSize_of_lt hlow]
    rfl
  · have hlt : height.toNat < 4249600 := h
    have hsize : tableSize height.toNat = _ := tableSize_of_between hhigh (by omega)
    rw [calcN_of_between hhigh (UInt32.lt_trans h (by decide)), hsize, toNat_iterate (by omega)]

/-- Below the height of the 72nd step the size grows with the height. -/
theorem tableSize_le {lower height : ℕ} (hle : lower ≤ height) (h : height < 4249600) :
    tableSize lower ≤ tableSize height := by
  obtain hlow | hhigh := lt_or_ge height 614400
  · rw [tableSize_of_lt hlow, tableSize_of_lt (hle.trans_lt hlow)]
  · rw [tableSize_of_between hhigh (by omega)]
    obtain hlow | hlower := lt_or_ge lower 614400
    · rw [tableSize_of_lt hlow]
      exact iterate_enlarged_mono (Nat.zero_le _)
    · rw [tableSize_of_between hlower (by omega)]
      exact iterate_enlarged_mono (by omega)

theorem tableSize_le_final {height : ℕ} (h : height < 4249600) :
    tableSize height ≤ 2143944600 := by
  obtain hlow | hhigh := lt_or_ge height 614400
  · rw [tableSize_of_lt hlow]
    decide
  · rw [tableSize_of_between hhigh (by omega)]
    exact iterate_enlarged_le (by omega)

theorem SizeAgrees.of_lt {height : UInt32} (h : height < 4249600) : SizeAgrees height := by
  constructor
  · exact toNat_calcN h
  · intro lower hle
    apply UInt32.le_iff_toNat_le.mpr
    rw [toNat_calcN h, toNat_calcN (UInt32.lt_of_le_of_lt hle h)]
    exact tableSize_le hle h
  · apply UInt32.le_iff_toNat_le.mpr
    rw [toNat_calcN h]
    exact (tableSize_le_final h).trans (by decide)

/-- The table is as it has to be exactly before its 72nd step. -/
theorem sizeAgrees_iff (height : UInt32) : SizeAgrees height ↔ height < 4249600 := by
  constructor
  · intro hagrees
    by_contra hge
    have hstep : calcN 4249600 = 2251141830 := by decide +kernel
    have hle : calcN 4249600 ≤ 2147387550 :=
      UInt32.le_trans (hagrees.le_of_le 4249600 (UInt32.not_lt.mp hge)) hagrees.le_final
    rw [hstep] at hle
    exact absurd hle (by decide)
  · exact SizeAgrees.of_lt

theorem not_sizeAgrees : ¬ SizeAgrees 4249600 := by
  intro hagrees
  have hle := hagrees.le_final
  exact absurd hle (by decide +kernel)

end Miningcore.Ergo
