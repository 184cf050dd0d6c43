import Miningcore.Blockchain.Cryptonote.CryptonotePool
import Miningcore.Mining.RetargetCredit

/-!
# Shares of worker jobs from before a retarget

A worker job is announced with the target of the difficulty of its time. Up to four of a
connection are held, and the shares of all of them are checked against the last two
difficulties of the connection.

## Implementation notes

Share-diffs are exact. The changes after a worker job are kept with it, which the code does
not.
-/

namespace Miningcore.Cryptonote

open Foundation Mining

def diff1b : ℕ := 2 ^ 256 - 1

/-- The exact share-diff of a hash. -/
def exactShareDiff (headerHash : List UInt8) : ℚ := diff1b / Progpow.toBigInteger headerHash

/-- The connection and the difficulty that a worker job was created for, and the difficulties that
the connection was given after it. -/
structure Issue where
  connectionId : String
  difficulty : ℚ
  changes : List ℚ
deriving DecidableEq

/-- The difficulties of a connection from a worker job on. -/
def Issue.difficulties (issue : Issue) : List ℚ := issue.difficulty :: issue.changes

/-- A pool with what is known of its worker jobs, in the order in which they are created. -/
structure IssuedState extends PoolState where
  issues : List Issue := []

/-- What happens to the difficulties and the worker jobs of a pool. -/
inductive WorkerEvent where
  | updateJob (blockTemplate : BlockTemplate)
  | createWorkerJob (connectionId : String)
  | onVarDiffUpdate (connectionId : String) (updated : ℕ) (newDiff : ℚ)

/-- The difficulty of a connection changes behind its worker jobs. -/
def Issue.change (connectionId : String) (newDiff : ℚ) (issue : Issue) : Issue :=
  if issue.connectionId = connectionId then { issue with changes := issue.changes ++ [newDiff] }
  else issue

namespace IssuedState

variable (pool : CryptonotePool) (state : IssuedState)

/-- What is known of a new worker job. -/
def newIssue (connectionId : String) : Issue where
  connectionId
  difficulty := (state.contexts connectionId).difficulty
  changes := []

def createWorkerJob (connectionId : String) : IssuedState where
  toPoolState := state.toPoolState.createWorkerJob pool connectionId
  issues :=
    if state.currentJob.isSome then state.issues ++ [state.newIssue connectionId]
    else state.issues

/-- A new difficulty applies at once, and the job is sent again. -/
def onVarDiffUpdate (connectionId : String) (updated : ℕ) (newDiff : ℚ) : IssuedState :=
  let context : WorkerContextBase := { toWorkerDifficulty := state.contexts connectionId }
  let (applied, context) := (context.onVarDiffUpdate updated newDiff).applyPendingDifficulty
  let contexts := Function.update state.contexts connectionId context.toWorkerDifficulty
  if applied then
    createWorkerJob pool
      { state with contexts, issues := state.issues.map (Issue.change connectionId newDiff) }
      connectionId
  else { state with contexts }

def step : WorkerEvent → IssuedState
  | .updateJob blockTemplate =>
      { state with toPoolState := state.toPoolState.updateJob pool blockTemplate }
  | .createWorkerJob connectionId => state.createWorkerJob pool connectionId
  | .onVarDiffUpdate connectionId updated newDiff =>
      state.onVarDiffUpdate pool connectionId updated newDiff

/-- The pool after a run. The connections have their first difficulties before it. -/
def run (contexts : String → WorkerDifficulty) (events : List WorkerEvent) : IssuedState :=
  events.foldl (step pool) { contexts }

end IssuedState

section checks

variable (pool : CryptonotePool)

/-- The hash function of a coin for the blobs of a template. -/
def Coin.hash : Coin → BlockTemplate → List UInt8 → List UInt8
  | .cryptonote hashFunc _, blockTemplate, blobConverted =>
      hashFunc blockTemplate.seedHash blobConverted blockTemplate.height
  | .conceal hashFunc _, blockTemplate, blobConverted => hashFunc blobConverted blockTemplate.height

/-- The hash of a share, when it is the worker's. -/
def CryptonoteJob.checkedHash (job : CryptonoteJob) (nonce : List Char) (workerExtraNonce : ℕ)
    (workerHash : List Char) : Option (List UInt8) :=
  if nonce = [] ∨ workerHash = [] ∨ workerExtraNonce = 0 ∨ !matchesDigits 8 nonce then none
  else
    ((((job.workerBlob workerExtraNonce).bind fun blob =>
      copyTo (hexToByteArray nonce) blob blobNonceOffset).bind pool.convertBlob).map
        (pool.coin.hash job.blockTemplate)).filter fun headerHash =>
          toHexString headerHash = workerHash

/-- The hash whose difficulty is checked, with the difficulty of the block. There is none for a
submission that is refused before. -/
def PoolState.checkedHash (state : PoolState) (connectionId : String)
    (request : CryptonoteSubmitShareRequest) (registry : Registry) : Option (List UInt8 × ℤ) :=
  match state.checkRequest connectionId request with
  | .error _ => none
  | .ok (reference, workerJob, nonce) =>
      if (reference, ignoringCase nonce) ∈ registry then none
      else
        (state.currentJob.filter fun job => workerJob.height = job.blockTemplate.height).bind
          fun job => (job.checkedHash pool nonce workerJob.extraNonce request.hash).map
            fun headerHash => (headerHash, job.blockTemplate.difficulty)

/-- The outcome of a submission is an error about its difficulty. -/
def IsLowDifficulty {α : Type*} (outcome : Except SubmitException α) : Prop :=
  ∃ message, outcome = .error (.stratum .lowDifficultyShare message)

variable {pool}

/-- The difficulty of a share is refused once its hash is the worker's. -/
theorem CryptonoteJob.isLowDifficulty_processShareWith (job : CryptonoteJob)
    (badHash : List Char → List Char → String) (blockHash : List UInt8 → List UInt8 → List UInt8)
    (context : WorkerDifficulty) (nonce : List Char) (workerExtraNonce : ℕ)
    (workerHash : List Char) :
    IsLowDifficulty (job.processShareWith pool (pool.coin.hash job.blockTemplate) badHash blockHash
        context nonce workerExtraNonce workerHash) ↔
      ∃ headerHash ∈ job.checkedHash pool nonce workerExtraNonce workerHash,
        stratumDifficulty context
          (pool.isBlockCandidate headerHash job.blockTemplate.difficulty)
          (pool.isLow headerHash) = none := by
  rw [processShareWith, checkedHash]
  by_cases hempty : nonce = [] ∨ workerHash = [] ∨ workerExtraNonce = 0
  · have hrefused : nonce = [] ∨ workerHash = [] ∨ workerExtraNonce = 0 ∨
        (!matchesDigits 8 nonce) = true := by tauto
    rw [if_pos hempty, if_pos hrefused]
    simp [IsLowDifficulty]
  · rw [if_neg hempty]
    by_cases hdigits : (!matchesDigits 8 nonce) = true
    · rw [if_pos hdigits, if_pos (Or.inr (Or.inr (Or.inr hdigits)))]
      simp [IsLowDifficulty]
    · have hchecked : ¬ (nonce = [] ∨ workerHash = [] ∨ workerExtraNonce = 0 ∨
          (!matchesDigits 8 nonce) = true) := by tauto
      rw [if_neg hdigits, if_neg hchecked]
      cases (job.workerBlob workerExtraNonce).bind fun blob =>
          copyTo (hexToByteArray nonce) blob blobNonceOffset with
      | none => simp [IsLowDifficulty]
      | some blob =>
          cases hconvert : pool.convertBlob blob with
          | none => simp [IsLowDifficulty, hconvert]
          | some blobConverted =>
              by_cases hhash : toHexString (pool.coin.hash job.blockTemplate blobConverted) =
                  workerHash
              · simp only [hhash, hconvert, hashShare, ne_eq, not_true_eq_false, if_false,
                  Option.bind_some, Option.map_some, Option.filter_some, decide_true, if_true,
                  Option.mem_def, Option.some.injEq, exists_eq_left']
                cases stratumDifficulty context
                    (pool.isBlockCandidate (pool.coin.hash job.blockTemplate blobConverted)
                      job.blockTemplate.difficulty)
                    (pool.isLow (pool.coin.hash job.blockTemplate blobConverted)) with
                | none => simp [IsLowDifficulty]
                | some difficulty => simp [IsLowDifficulty]
              · simp [IsLowDifficulty, hconvert, hhash]

theorem CryptonotePool.isLowDifficulty_processShare (job : CryptonoteJob)
    (context : WorkerDifficulty) (nonce : List Char) (workerExtraNonce : ℕ)
    (workerHash : List Char) :
    IsLowDifficulty (pool.processShare job context nonce workerExtraNonce workerHash) ↔
      ∃ headerHash ∈ job.checkedHash pool nonce workerExtraNonce workerHash,
        stratumDifficulty context
          (pool.isBlockCandidate headerHash job.blockTemplate.difficulty)
          (pool.isLow headerHash) = none := by
  have hprocess : ∃ badHash blockHash, pool.processShare job =
      job.processShareWith pool (pool.coin.hash job.blockTemplate) badHash blockHash := by
    rw [processShare]
    cases pool.coin with
    | cryptonote hashFunc blobType => exact ⟨_, _, rfl⟩
    | conceal hashFunc blobType => exact ⟨_, _, rfl⟩
  obtain ⟨badHash, blockHash, hprocess⟩ := hprocess
  rw [hprocess]
  exact job.isLowDifficulty_processShareWith badHash blockHash context nonce workerExtraNonce
    workerHash

/-- A submission is refused for its difficulty only by the check of its hash. -/
theorem PoolState.isLowDifficulty_onSubmit (state : PoolState) (connectionId : String)
    (request : CryptonoteSubmitShareRequest) (accepted : Bool) (registry : Registry) :
    IsLowDifficulty (state.onSubmit pool connectionId request accepted registry).2 ↔
      ∃ checked ∈ state.checkedHash pool connectionId request registry,
        stratumDifficulty (state.contexts connectionId)
          (pool.isBlockCandidate checked.1 checked.2) (pool.isLow checked.1) = none := by
  rw [onSubmit, checkedHash]
  cases hcheck : state.checkRequest connectionId request with
  | error exception =>
      have hother : ∀ message, exception ≠ .stratum .lowDifficultyShare message := by
        intro message heq
        rw [checkRequest] at hcheck
        split at hcheck
        · cases hcheck
          cases heq
        · split at hcheck
          · cases hcheck
            cases heq
          · split at hcheck
            · cases hcheck
              cases heq
            · cases hcheck
      simp [IsLowDifficulty, hother]
  | ok named =>
      obtain ⟨reference, workerJob, nonce⟩ := named
      dsimp only
      by_cases hmem : (reference, ignoringCase nonce) ∈ registry
      · simp [hmem, IsLowDifficulty]
      · rw [if_neg hmem, if_neg hmem, submitShare]
        cases state.currentJob with
        | none => simp [IsLowDifficulty]
        | some job =>
            by_cases hheight : workerJob.height = job.blockTemplate.height
            · have hlow := pool.isLowDifficulty_processShare job (state.contexts connectionId)
                nonce workerJob.extraNonce request.hash
              simp only [Option.mem_def] at hlow
              simp only [hheight, ne_eq, not_true_eq_false, if_false, Option.filter_some,
                decide_true, if_true, Option.bind_some, Option.mem_def, Option.map_eq_some_iff,
                exists_exists_and_eq_and]
              rw [← hlow]
              cases pool.processShare job (state.contexts connectionId) nonce workerJob.extraNonce
                  request.hash with
              | error exception => simp [IsLowDifficulty]
              | ok result =>
                  obtain ⟨share, blob⟩ := result
                  simp [IsLowDifficulty]
            · simp [hheight, Option.filter_some, IsLowDifficulty]

end checks

namespace Issue

/-- The difficulties since a worker job end in those of a context. -/
structure EndsIn (issue : Issue) (worker : WorkerDifficulty) : Prop where
  difficulty_eq : issue.difficulties.getLast? = some worker.difficulty
  previous_eq : issue.changes ≠ [] → worker.varDiffLastUpdate.isSome ∧
    issue.difficulties.dropLast.getLast? = worker.previousDifficulty

variable {issue : Issue} {worker : WorkerDifficulty}

@[simp] theorem connectionId_change (connectionId : String) (newDiff : ℚ) :
    (issue.change connectionId newDiff).connectionId = issue.connectionId := by
  rw [change]
  split
  · rfl
  · rfl

@[simp] theorem difficulty_change (connectionId : String) (newDiff : ℚ) :
    (issue.change connectionId newDiff).difficulty = issue.difficulty := by
  rw [change]
  split
  · rfl
  · rfl

theorem endsIn_new (connectionId : String) (worker : WorkerDifficulty) :
    EndsIn { connectionId, difficulty := worker.difficulty, changes := [] } worker where
  difficulty_eq := rfl
  previous_eq h := absurd rfl h

/-- A change puts the difficulty that it replaces in front of the last. -/
theorem EndsIn.change (h : issue.EndsIn worker) (updated : ℕ) (newDiff : ℚ) :
    EndsIn (issue.change issue.connectionId newDiff)
      { difficulty := newDiff
        varDiffLastUpdate := some updated
        previousDifficulty := some worker.difficulty } := by
  have hdifficulties : (issue.change issue.connectionId newDiff).difficulties =
      issue.difficulties ++ [newDiff] := by
    rw [Issue.change, if_pos rfl]
    rfl
  constructor
  · rw [hdifficulties, List.getLast?_concat]
  · intro _
    rw [hdifficulties, List.dropLast_concat, h.difficulty_eq]
    exact ⟨rfl, rfl⟩

/-- The last two difficulties are those that a context knows, whether it uses the previous one. -/
theorem EndsIn.stratumDifficulty_eq_none_iff (h : issue.EndsIn worker) {isLow : ℚ → Bool}
    (hfirst : isLow issue.difficulty = false) :
    stratumDifficulty worker false isLow = none ↔
      1 < issue.changes.length ∧ ∀ difficulty ∈ issue.difficulties.reverse.take 2,
        isLow difficulty = true := by
  obtain ⟨hcurrent, hprevious⟩ := h
  obtain ⟨connectionId, first, changes⟩ := issue
  dsimp only [difficulties] at hcurrent hprevious hfirst ⊢
  obtain rfl | ⟨earlier, last, rfl⟩ := List.eq_nil_or_concat' changes
  · have hdifficulty : first = worker.difficulty := Option.some.inj hcurrent
    rw [stratumDifficulty, ← hdifficulty, hfirst]
    simp
  · obtain ⟨hupdated, hprevious⟩ := hprevious (by simp)
    obtain ⟨updated, hupdated⟩ := Option.isSome_iff_exists.mp hupdated
    rw [← List.cons_append, List.dropLast_concat] at hprevious
    rw [← List.cons_append, List.getLast?_concat, Option.some.injEq] at hcurrent
    rw [stratumDifficulty, hupdated, ← hprevious, ← hcurrent]
    obtain rfl | ⟨rest, previous, rfl⟩ := List.eq_nil_or_concat' earlier
    · -- the first difficulty is the previous one
      cases hlast : isLow last with
      | false => simp [hlast]
      | true => simp [hlast, hfirst]
    · rw [← List.cons_append, List.getLast?_concat]
      cases hlast : isLow last with
      | false => simp [hlast]
      | true => simp [hlast]

end Issue

/-- The worker jobs of a queue are of its connection, at a difficulty that has a target. -/
structure IssuedState.IsIssued (state : IssuedState) : Prop where
  length_eq : state.issues.length = state.workerJobs.created.length
  endsIn : ∀ issue ∈ state.issues, issue.EndsIn (state.contexts issue.connectionId)
  queued : ∀ connectionId, ∀ reference ∈ state.workerJobs.validJobs connectionId,
    ∃ issue, state.issues[reference]? = some issue ∧ issue.connectionId = connectionId ∧
      0 < issue.difficulty

theorem pos_of_isSent {pool : CryptonotePool} {job : CryptonoteJob} {workerExtraNonce : ℕ}
    {difficulty : ℚ} (h : isSent pool job workerExtraNonce difficulty) : 0 < difficulty := by
  rw [isSent, Bool.and_eq_true, decide_eq_true_iff, decide_eq_true_iff] at h
  by_contra hnot
  apply h.2
  rw [encodeTarget, if_pos (scaledDifficulty_of_nonpos longMax (not_lt.mp hnot))]
  rfl

namespace IssuedState

variable {pool : CryptonotePool} {state : IssuedState}

/-- A worker job comes with the difficulty of its connection, and stays out of the queue if it
has no target. -/
theorem IsIssued.createWorkerJob (h : state.IsIssued) (connectionId : String) :
    (state.createWorkerJob pool connectionId).IsIssued := by
  rw [IssuedState.createWorkerJob, PoolState.createWorkerJob]
  cases hcurrent : state.currentJob with
  | none => exact ⟨h.length_eq, h.endsIn, h.queued⟩
  | some job =>
      simp only [Option.isSome_some, if_true]
      refine ⟨?_, ?_, ?_⟩
      · dsimp only
        split
        · simp [WorkerJobs.addJob, h.length_eq]
        · simp [WorkerJobs.addUnsent, h.length_eq]
      · intro issue hmem
        obtain hmem | hmem := List.mem_append.mp hmem
        · exact h.endsIn issue hmem
        · cases List.mem_singleton.mp hmem
          exact Issue.endsIn_new connectionId _
      · intro other reference hmem
        have hold : reference ∈ state.workerJobs.validJobs other →
            ∃ issue, (state.issues ++ [state.newIssue connectionId])[reference]? = some issue ∧
              issue.connectionId = other ∧ 0 < issue.difficulty := by
          intro hmem
          obtain ⟨issue, hissue, hrest⟩ := h.queued other reference hmem
          exact ⟨issue, getElem?_of_isPrefix (List.prefix_append _ _) hissue, hrest⟩
        dsimp only at hmem
        split at hmem
        · rename_i hsent
          obtain hmem | ⟨rfl, rfl⟩ := WorkerJobs.mem_validJobs_addJob hmem
          · exact hold hmem
          · refine ⟨state.newIssue other, ?_, rfl, pos_of_isSent hsent⟩
            rw [← h.length_eq]
            exact List.getElem?_concat_length
        · exact hold hmem

theorem IsIssued.updateJob (h : state.IsIssued) (blockTemplate : BlockTemplate) :
    (state.step pool (.updateJob blockTemplate)).IsIssued := by
  have hupdate : (state.toPoolState.updateJob pool blockTemplate).workerJobs = state.workerJobs ∧
      (state.toPoolState.updateJob pool blockTemplate).contexts = state.contexts := by
    rw [PoolState.updateJob]
    split
    · exact ⟨rfl, rfl⟩
    · split
      · exact ⟨rfl, rfl⟩
      · split
        · exact ⟨rfl, rfl⟩
        · exact ⟨rfl, rfl⟩
  constructor
  · rw [step, hupdate.1]
    exact h.length_eq
  · rw [step, hupdate.2]
    exact h.endsIn
  · rw [step, hupdate.1]
    exact h.queued

/-- The change of a difficulty is one for every worker job of its connection. -/
theorem IsIssued.onVarDiffUpdate (h : state.IsIssued) (connectionId : String) (updated : ℕ)
    (newDiff : ℚ) : (state.onVarDiffUpdate pool connectionId updated newDiff).IsIssued := by
  have hchanged : IsIssued { state with
      contexts := Function.update state.contexts connectionId
        { difficulty := newDiff
          varDiffLastUpdate := some updated
          previousDifficulty := some (state.contexts connectionId).difficulty }
      issues := state.issues.map (Issue.change connectionId newDiff) } := by
    refine ⟨?_, ?_, ?_⟩
    · rw [List.length_map, h.length_eq]
    · intro issue hmem
      obtain ⟨earlier, hearlier, rfl⟩ := List.mem_map.mp hmem
      have hends := h.endsIn earlier hearlier
      rw [Issue.connectionId_change]
      dsimp only
      by_cases hsame : earlier.connectionId = connectionId
      · subst hsame
        rw [Function.update_self]
        exact hends.change updated newDiff
      · rw [Issue.change, if_neg hsame, Function.update_of_ne hsame]
        exact hends
    · intro other reference hmem
      obtain ⟨issue, hissue, hconnection, hpos⟩ := h.queued other reference hmem
      refine ⟨issue.change connectionId newDiff, ?_, ?_, ?_⟩
      · rw [List.getElem?_map, hissue, Option.map_some]
      · rw [Issue.connectionId_change, hconnection]
      · rw [Issue.difficulty_change]
        exact hpos
  exact hchanged.createWorkerJob connectionId

theorem IsIssued.step (h : state.IsIssued) (event : WorkerEvent) :
    (state.step pool event).IsIssued := by
  cases event with
  | updateJob blockTemplate => exact h.updateJob blockTemplate
  | createWorkerJob connectionId => exact h.createWorkerJob connectionId
  | onVarDiffUpdate connectionId updated newDiff =>
      exact h.onVarDiffUpdate connectionId updated newDiff

theorem isIssued_run (contexts : String → WorkerDifficulty) (events : List WorkerEvent) :
    (run pool contexts events).IsIssued := by
  rw [run]
  have hstart : IsIssued { contexts } := by
    refine ⟨rfl, ?_, ?_⟩
    · intro issue hmem
      cases hmem
    · intro connectionId reference hmem
      cases hmem
  generalize ({ contexts } : IssuedState) = start at hstart ⊢
  induction events generalizing start with
  | nil => exact hstart
  | cons event events ih => exact ih _ (hstart.step event)

end IssuedState

/-- A share-diff that meets a difficulty is not below 0.99 of it. -/
theorem lowRatio_eq_false_of_le {headerHash : List UInt8} {difficulty : ℚ} (hpos : 0 < difficulty)
    (hmeets : difficulty ≤ exactShareDiff headerHash) :
    lowRatio diff1b 1 (Progpow.toBigInteger headerHash) difficulty = false := by
  rw [lowRatio_eq_false_iff_of_pos hpos, mul_one]
  have hratio : minRatio * difficulty ≤ difficulty :=
    mul_le_of_le_one_left hpos.le (by norm_num [minRatio])
  exact hratio.trans hmeets

section rejections

variable {pool : CryptonotePool}
  (hexact : pool.isLow = fun headerHash => lowRatio diff1b 1 (Progpow.toBigInteger headerHash))
  (contexts : String → WorkerDifficulty) (events : List WorkerEvent)

open IssuedState in
include hexact in
/-- A share that meets the difficulty of its worker job is taken while the difficulty has changed
once at most since, and after that if it meets the last two difficulties as well. -/
theorem not_isLowDifficulty_iff (connectionId : String) (request : CryptonoteSubmitShareRequest)
    (accepted : Bool) (registry : Registry) {reference : ℕ} {workerJob : PreparedJob}
    (issue : Issue)
    (hnamed : (run pool contexts events).workerJobs.getJob (fun _ job => job.id = request.jobId)
      connectionId = some (reference, workerJob))
    (hissue : (run pool contexts events).issues[reference]? = some issue)
    (hmeets : ∀ checked ∈ (run pool contexts events).checkedHash pool connectionId request registry,
      issue.difficulty ≤ exactShareDiff checked.1) :
    ¬ IsLowDifficulty ((run pool contexts events).onSubmit pool connectionId request accepted
        registry).2 ↔
      ∀ checked ∈ (run pool contexts events).checkedHash pool connectionId request registry,
        pool.isBlockCandidate checked.1 checked.2 ∨ issue.changes.length ≤ 1 ∨
          ∃ difficulty ∈ issue.difficulties.reverse.take 2,
            pool.isLow checked.1 difficulty = false := by
  have hissued : (run pool contexts events).IsIssued := isIssued_run contexts events
  generalize run pool contexts events = state at *
  obtain ⟨queued, hqueued, hconnection, hpos⟩ :=
    hissued.queued connectionId reference (WorkerJobs.mem_validJobs_of_getJob hnamed)
  cases hissue.symm.trans hqueued
  have hends := hissued.endsIn issue (List.mem_of_getElem? hissue)
  rw [hconnection] at hends
  have hcheck : ∀ checked ∈ state.checkedHash pool connectionId request registry,
      (stratumDifficulty (state.contexts connectionId)
        (pool.isBlockCandidate checked.1 checked.2) (pool.isLow checked.1) ≠ none ↔
      pool.isBlockCandidate checked.1 checked.2 ∨ issue.changes.length ≤ 1 ∨
        ∃ difficulty ∈ issue.difficulties.reverse.take 2,
          pool.isLow checked.1 difficulty = false) := by
    intro checked hchecked
    have hfirst : pool.isLow checked.1 issue.difficulty = false := by
      rw [hexact]
      exact lowRatio_eq_false_of_le hpos (hmeets checked hchecked)
    cases pool.isBlockCandidate checked.1 checked.2 with
    | true => simp
    | false =>
        rw [ne_eq, hends.stratumDifficulty_eq_none_iff hfirst]
        simp only [Bool.false_eq_true, false_or, not_and_or, not_lt, not_forall, Bool.not_eq_true,
          exists_prop]
  rw [PoolState.isLowDifficulty_onSubmit, not_exists]
  refine forall_congr' fun checked => ?_
  rw [not_and]
  exact forall_congr' fun hchecked => hcheck checked hchecked

end rejections

namespace TwoRaises

open PoolState

/-- A pool whose hashes have a share-diff of almost 256. -/
def pool : CryptonotePool where
  coin := .cryptonote (fun _ _ _ => Bitcoin.littleEndian 32 (2 ^ 248)) 0
  instanceId := [1, 2, 3, 4]
  convertBlob := some
  getBlockId := id
  cryptonightHashFast := id
  isBlockCandidate headerHash difficulty := difficulty ≤ exactShareDiff headerHash
  isLow headerHash := lowRatio diff1b 1 (Progpow.toBigInteger headerHash)
  shareDiff _ := "255.99609375"

def contexts : String → WorkerDifficulty := fun _ => { difficulty := 200 }

def blockTemplate : BlockTemplate where
  blob := List.replicate 120 '0'
  difficulty := 1000
  height := 1
  seedHash := []
  reservedOffset := 48

/-- A worker job, and two changes of the difficulty after it. -/
def events (newDiff newDiff' : ℚ) : List WorkerEvent :=
  [.updateJob blockTemplate, .createWorkerJob "A", .onVarDiffUpdate "A" 1 newDiff,
    .onVarDiffUpdate "A" 2 newDiff']

def request : CryptonoteSubmitShareRequest where
  workerId := "A"
  jobId := "1".toList
  nonce := some "0000000a".toList
  hash := toHexString (Bitcoin.littleEndian 32 (2 ^ 248))

end TwoRaises

open IssuedState TwoRaises in
theorem isLowDifficulty_twoRaises :
    let state := run pool contexts (events 400 800)
    (state.workerJobs.getJob (fun _ job => job.id = request.jobId) "A").map Prod.fst = some 0 ∧
    state.issues[0]?.map Issue.difficulty = some 200 ∧
    (∀ checked ∈ state.checkedHash pool "A" request [], 200 ≤ exactShareDiff checked.1) ∧
    IsLowDifficulty (state.onSubmit pool "A" request true []).2 := by
  have hchecked : (run pool contexts (events 400 800)).checkedHash pool "A" request [] =
      some (Bitcoin.littleEndian 32 (2 ^ 248), 1000) := by decide +kernel
  refine ⟨by decide +kernel, by decide +kernel, ?_, ?_⟩
  · intro checked hmem
    rw [hchecked] at hmem
    cases hmem
    decide +kernel
  · rw [PoolState.isLowDifficulty_onSubmit]
    exact ⟨_, hchecked, by decide +kernel⟩

open IssuedState TwoRaises in
theorem not_isLowDifficulty_raiseAndDrop :
    ¬ IsLowDifficulty
      ((run pool contexts (events 400 100)).onSubmit pool "A" request true []).2 := by
  have hchecked : (run pool contexts (events 400 100)).checkedHash pool "A" request [] =
      some (Bitcoin.littleEndian 32 (2 ^ 248), 1000) := by decide +kernel
  have hnamed : (run pool contexts (events 400 100)).workerJobs.getJob
      (fun _ job => job.id = request.jobId) "A" = some (0, ⟨⟨"1".toList, 1, 1⟩, 0⟩) := by
    decide +kernel
  have hmeets : ∀ checked ∈ (run pool contexts (events 400 100)).checkedHash pool "A" request [],
      200 ≤ exactShareDiff checked.1 := by
    intro checked hmem
    rw [hchecked] at hmem
    cases hmem
    decide +kernel
  have hiff := not_isLowDifficulty_iff rfl contexts (events 400 100) "A" request true []
    ⟨"A", 200, [400, 100]⟩ hnamed (by decide +kernel) hmeets
  rw [hiff]
  intro checked hmem
  rw [hchecked] at hmem
  cases hmem
  exact Or.inr (Or.inr ⟨100, by decide +kernel, by decide +kernel⟩)

end Miningcore.Cryptonote
