import Mathlib.Data.Rat.Defs
import Miningcore.Extensions.HexParsing

/-!
# Submitted shares

What the jobs of all coins have in common: the exceptions of a submission, the
share it becomes and the check of the share's difficulty.

## Implementation notes

Whether a share's difficulty is below 0.99 of another is decided in floating
point, so it is a predicate of the job.
-/

namespace Miningcore

inductive StratumError where
  | other
  | jobNotFound
  | duplicateShare
  | lowDifficultyShare
  | unauthorizedWorker
  | notSubscribed
  | minusOne
deriving DecidableEq

inductive SubmitException where
  | stratum (code : StratumError) (message : String)
  | argument
  | argumentNull
  | nullReference
  | indexOutOfRange
  | invalidCast
  | divideByZero
  | parse (exception : ParseException)
deriving DecidableEq

/-- The difficulty a worker mines at, and the one before a retarget. -/
structure WorkerDifficulty where
  difficulty : ℚ
  varDiffLastUpdate : Option Nat := none
  previousDifficulty : Option ℚ := none

structure MinedShare where
  blockHeight : Nat
  networkDifficulty : Option ℚ := none
  difficulty : ℚ
  isBlockCandidate : Bool
  blockHash : Option String := none
  transactionConfirmationData : Option String := none
deriving DecidableEq

/-- The difficulty the share is taken for, unless it is too low for all of them. -/
def stratumDifficulty (worker : WorkerDifficulty) (isBlockCandidate : Bool) (isLow : ℚ → Bool) :
    Option ℚ :=
  if !isBlockCandidate && isLow worker.difficulty then
    match worker.varDiffLastUpdate, worker.previousDifficulty with
    | some _, some previous => if isLow previous then none else some previous
    | _, _ => none
  else some worker.difficulty

@[simp] theorem stratumDifficulty_candidate (worker : WorkerDifficulty) (isLow : ℚ → Bool) :
    stratumDifficulty worker true isLow = some worker.difficulty := rfl

/-- The current difficulty comes first, and the previous one needs an update. -/
theorem stratumDifficulty_eq_some_iff {worker : WorkerDifficulty} {isBlockCandidate : Bool}
    {isLow : ℚ → Bool} {difficulty : ℚ} :
    stratumDifficulty worker isBlockCandidate isLow = some difficulty ↔
      (isBlockCandidate ∨ isLow worker.difficulty = false) ∧ worker.difficulty = difficulty ∨
        ¬(isBlockCandidate ∨ isLow worker.difficulty = false) ∧ worker.varDiffLastUpdate.isSome ∧
          worker.previousDifficulty = some difficulty ∧ isLow difficulty = false := by
  cases isBlockCandidate with
  | true => simp
  | false =>
      cases hlow : isLow worker.difficulty with
      | false => simp [stratumDifficulty, hlow]
      | true =>
          cases hupdate : worker.varDiffLastUpdate with
          | none => simp [stratumDifficulty, hlow, hupdate]
          | some updated =>
              cases hprevious : worker.previousDifficulty with
              | none => simp [stratumDifficulty, hlow, hupdate, hprevious]
              | some previous =>
                  cases hlower : isLow previous with
                  | false =>
                      simp only [stratumDifficulty, hlow, hupdate, hprevious, hlower]
                      constructor
                      · rintro ⟨rfl⟩
                        simp [hlower]
                      · rintro (⟨h, -⟩ | ⟨-, -, h, -⟩)
                        · simp at h
                        · simpa using h
                  | true =>
                      simp only [stratumDifficulty, hlow, hupdate, hprevious, hlower]
                      constructor
                      · intro h
                        simp at h
                      · rintro (⟨h, -⟩ | ⟨-, -, ⟨rfl⟩, h⟩)
                        · simp at h
                        · exact absurd (hlower.symm.trans h) (by decide)

end Miningcore
