import Miningcore.Blockchain.Alephium.AlephiumJob
import Miningcore.Blockchain.Progpow.ProgpowJob
import Miningcore.Foundation.LineSplitting
import Miningcore.Mining.WorkerContextBase

/-!
# The messages of an Alephium node

A message has its length in front. What the reads bring goes to the end of a buffer, and the
jobs of a message are published when all of it is there.

## Implementation notes

Before version 1 of the protocol a message has no version and a job no height, which the
node is asked for. A reader throws with `none`. Times are left out.
-/

namespace Miningcore.Alephium

open Foundation Mining

structure AlephiumBlockTemplate where
  jobId : List Char
  height : ℕ
  fromGroup : ℤ
  toGroup : ℤ
  headerBlob : List Char
  txsBlob : List Char
  targetBlob : List Char
  chainIndex : ℤ
deriving DecidableEq

def messageHeaderSize : ℕ := 4

def miningProtocolVersion : UInt8 := 0x01

def jobsMessageType : UInt8 := 0x00

/-- What the jobs of a connection depend on, other than its bytes. -/
structure JobReader where
  socketMiningProtocol : ℕ
  /-- The current height in the answer to every request for a chain info. -/
  chainInfo : ℕ → Option ℕ

/-- How many jobs there have been. -/
structure JobCounters where
  lastJobId : ℕ := 0
  chainInfos : ℕ := 0
deriving DecidableEq

/-- A conversion to `int`. -/
def toInt32 (n : ℤ) : ℤ := n.bmod (2 ^ 32)

/-- `ToString("X")` of a number that is not negative. -/
def toHex (n : ℕ) : List Char := (Nat.toDigits 16 n).map Char.toUpper

section reading

def readBigEndianUInt32 (bytes : List UInt8) : Option (ℕ × List UInt8) :=
  if bytes.length < 4 then none
  else some (Progpow.toBigInteger (bytes.take 4).reverse, bytes.drop 4)

def readByte : List UInt8 → Option (UInt8 × List UInt8)
  | [] => none
  | b :: bytes => some (b, bytes)

/-- As many bytes as there are, up to a number that must not be negative. -/
def readBytes (count : ℕ) (bytes : List UInt8) : Option (List UInt8 × List UInt8) :=
  if toInt32 count < 0 then none else some (bytes.take count, bytes.drop count)

/-- The length of a blob and its bytes. -/
def readBlob (bytes : List UInt8) : Option (List UInt8 × List UInt8) := do
  let (length, bytes) ← readBigEndianUInt32 bytes
  readBytes length bytes

variable (reader : JobReader)

def readJob (counters : JobCounters) (bytes : List UInt8) :
    Option (AlephiumBlockTemplate × JobCounters × List UInt8) := do
  let (fromGroup, bytes) ← readBigEndianUInt32 bytes
  let (toGroup, bytes) ← readBigEndianUInt32 bytes
  let (chainHeight, chainInfos) ←
    if reader.socketMiningProtocol = 0 then
      (reader.chainInfo counters.chainInfos).map fun height =>
        (height + 1, counters.chainInfos + 1)
    else some (0, counters.chainInfos)
  let (headerBlob, bytes) ← readBlob bytes
  let (txsBlob, bytes) ← readBlob bytes
  let (targetBlob, bytes) ← readBlob bytes
  let (height, bytes) ←
    if 0 < reader.socketMiningProtocol then readBigEndianUInt32 bytes
    else some (chainHeight, bytes)
  let (jobId, lastJobId) := nextExtraNonce counters.lastJobId
  return ({
    jobId := toHex jobId
    height
    fromGroup := toInt32 fromGroup
    toGroup := toInt32 toGroup
    headerBlob := toHexString headerBlob
    txsBlob := toHexString txsBlob
    targetBlob := toHexString targetBlob
    chainIndex := toInt32 (toInt32 fromGroup * groupSize + toInt32 toGroup) },
    { lastJobId, chainInfos }, bytes)

def readJobs : ℕ → JobCounters → List UInt8 →
    Option (List AlephiumBlockTemplate × JobCounters × List UInt8)
  | 0, counters, bytes => some ([], counters, bytes)
  | jobSize + 1, counters, bytes => do
      let (blockTemplate, counters, bytes) ← readJob reader counters bytes
      let (blockTemplates, counters, bytes) ← readJobs jobSize counters bytes
      return (blockTemplate :: blockTemplates, counters, bytes)

/-- The version, where there is one, and the type of a message. -/
def readMessageType (bytes : List UInt8) : Option (UInt8 × UInt8 × List UInt8) := do
  let (messageVersion, bytes) ←
    if 0 < reader.socketMiningProtocol then readByte bytes
    else some (miningProtocolVersion, bytes)
  let (messageType, bytes) ← readByte bytes
  return (messageVersion, messageType, bytes)

/-- What becomes of the front of the buffer. -/
inductive Digest where
  | wait
  | failed
  | publish (blockTemplates : List AlephiumBlockTemplate) (counters : JobCounters)
      (dynamicBuffer : List UInt8)

/-- The lengths are added up in `uint`. -/
def digestMessage (counters : JobCounters) (dynamicBuffer : List UInt8) : Digest :=
  match readBigEndianUInt32 dynamicBuffer with
  | none => .wait
  | some (messageLength, bytes) =>
      let size := (messageLength + messageHeaderSize) % 2 ^ 32
      if size ≤ dynamicBuffer.length then
        match readMessageType reader bytes with
        | none => .failed
        | some (messageVersion, messageType, bytes) =>
            if messageVersion = miningProtocolVersion ∧ messageType = jobsMessageType then
              match (readBigEndianUInt32 bytes).bind fun (jobSize, bytes) =>
                readJobs reader jobSize counters bytes with
              | none => .failed
              | some (blockTemplates, counters, _) =>
                  .publish blockTemplates counters (dynamicBuffer.drop size)
            else .wait
      else .wait

structure JobStream where
  dynamicBuffer : List UInt8 := []
  counters : JobCounters := {}
  published : List (List AlephiumBlockTemplate) := []
  isOpen : Bool := true
deriving DecidableEq

/-- The messages at the front of the buffer. Every one of them that is published shortens it, so
that its length is enough for all. -/
def JobStream.digest : ℕ → JobStream → JobStream
  | 0, stream => stream
  | fuel + 1, stream =>
      match digestMessage reader stream.counters stream.dynamicBuffer with
      | .wait => stream
      | .failed => { stream with isOpen := false }
      | .publish blockTemplates counters dynamicBuffer =>
          digest fuel { stream with
            dynamicBuffer, counters, published := stream.published ++ [blockTemplates] }

/-- A read of at least a byte. -/
def JobStream.read (stream : JobStream) (receivedBytes : List UInt8) : JobStream :=
  if stream.isOpen then
    let dynamicBuffer := stream.dynamicBuffer ++ receivedBytes
    digest reader dynamicBuffer.length { stream with dynamicBuffer }
  else stream

def readAll (chunks : List (List UInt8)) : JobStream := chunks.foldl (JobStream.read reader) {}

end reading

section messages

structure MiningJob where
  fromGroup : UInt32
  toGroup : UInt32
  headerBlob : List UInt8
  txsBlob : List UInt8
  targetBlob : List UInt8
  height : UInt32

/-- What a node sends, of which the pool does not use all. -/
inductive MessageBody where
  | jobs (miningJobs : List MiningJob)
  | unused (version messageType : UInt8) (payload : List UInt8)

def bigEndian (n : ℕ) : List UInt8 := (Bitcoin.littleEndian 4 n).reverse

def blob (bytes : List UInt8) : List UInt8 := bigEndian bytes.length ++ bytes

def MiningJob.bytes (socketMiningProtocol : ℕ) (job : MiningJob) : List UInt8 :=
  bigEndian job.fromGroup.toNat ++ bigEndian job.toGroup.toNat ++ blob job.headerBlob ++
    blob job.txsBlob ++ blob job.targetBlob ++
    if 0 < socketMiningProtocol then bigEndian job.height.toNat else []

/-- The version, where there is one, and the type. -/
def messageType (socketMiningProtocol : ℕ) (version messageType : UInt8) : List UInt8 :=
  (if 0 < socketMiningProtocol then [version] else []) ++ [messageType]

namespace MessageBody

def isJobs : MessageBody → Bool
  | jobs _ => true
  | unused _ _ _ => false

def bytes (socketMiningProtocol : ℕ) : MessageBody → List UInt8
  | jobs miningJobs =>
      Alephium.messageType socketMiningProtocol miningProtocolVersion jobsMessageType ++
        bigEndian miningJobs.length ++ miningJobs.flatMap (MiningJob.bytes socketMiningProtocol)
  | unused version messageType payload =>
      Alephium.messageType socketMiningProtocol version messageType ++ payload

/-- Another type of message, or another version where there is one. -/
def HasOwnType (socketMiningProtocol : ℕ) : MessageBody → Prop
  | jobs _ => True
  | unused version messageType _ =>
      messageType ≠ jobsMessageType ∨
        0 < socketMiningProtocol ∧ version ≠ miningProtocolVersion

end MessageBody

/-- A message that fits into a list of bytes. -/
structure Message (socketMiningProtocol : ℕ) where
  body : MessageBody
  hasOwnType : body.HasOwnType socketMiningProtocol
  length_lt : (body.bytes socketMiningProtocol).length + messageHeaderSize < 2 ^ 31

variable {socketMiningProtocol : ℕ}

def Message.bytes (message : Message socketMiningProtocol) : List UInt8 :=
  bigEndian (message.body.bytes socketMiningProtocol).length ++
    message.body.bytes socketMiningProtocol

/-- What the node sends. -/
def streamOf (messages : List (Message socketMiningProtocol)) : List UInt8 :=
  messages.flatMap Message.bytes

end messages

section published

variable (reader : JobReader)

/-- A job as it is published. -/
def blockTemplate (counters : JobCounters) (job : MiningJob) : AlephiumBlockTemplate where
  jobId := toHex (nextExtraNonce counters.lastJobId).1
  height :=
    if reader.socketMiningProtocol = 0 then
      ((reader.chainInfo counters.chainInfos).map (· + 1)).getD 0
    else job.height.toNat
  fromGroup := toInt32 job.fromGroup.toNat
  toGroup := toInt32 job.toGroup.toNat
  headerBlob := toHexString job.headerBlob
  txsBlob := toHexString job.txsBlob
  targetBlob := toHexString job.targetBlob
  chainIndex := toInt32 (toInt32 job.fromGroup.toNat * groupSize + toInt32 job.toGroup.toNat)

/-- The counters behind a job. -/
def JobCounters.next (counters : JobCounters) : JobCounters where
  lastJobId := (nextExtraNonce counters.lastJobId).2
  chainInfos :=
    if reader.socketMiningProtocol = 0 then counters.chainInfos + 1 else counters.chainInfos

def blockTemplates : JobCounters → List MiningJob → List AlephiumBlockTemplate × JobCounters
  | counters, [] => ([], counters)
  | counters, job :: jobs =>
      let (templates, after) := blockTemplates (counters.next reader) jobs
      (blockTemplate reader counters job :: templates, after)

/-- The node gives a height to the next jobs, if it has to be asked for it. -/
def Answers (counters : JobCounters) (count : ℕ) : Prop :=
  reader.socketMiningProtocol = 0 →
    ∀ k < count, (reader.chainInfo (counters.chainInfos + k)).isSome

variable {reader}

def MessageBody.jobCount : MessageBody → ℕ
  | jobs miningJobs => miningJobs.length
  | unused _ _ _ => 0

variable (reader) in
/-- The jobs of messages in order. -/
def jobsOf : JobCounters → List (Message reader.socketMiningProtocol) →
    List (List AlephiumBlockTemplate)
  | _, [] => []
  | counters, message :: messages =>
      match message.body with
      | .jobs miningJobs =>
          (blockTemplates reader counters miningJobs).1 ::
            jobsOf (blockTemplates reader counters miningJobs).2 messages
      | .unused _ _ _ => jobsOf counters messages

theorem answers_succ {counters : JobCounters} {count : ℕ} :
    Answers reader counters (count + 1) ↔
      (reader.socketMiningProtocol = 0 → (reader.chainInfo counters.chainInfos).isSome) ∧
        Answers reader (counters.next reader) count := by
  rw [Answers, Answers, ← forall_and]
  refine forall_congr' fun hprotocol => ?_
  have hnext : (counters.next reader).chainInfos = counters.chainInfos + 1 := if_pos hprotocol
  rw [hnext]
  constructor
  · intro h
    refine ⟨h 0 (Nat.succ_pos count), fun k hk => ?_⟩
    rw [Nat.add_assoc, Nat.add_comm 1]
    exact h (k + 1) (Nat.succ_lt_succ hk)
  · rintro ⟨hfirst, hrest⟩ k hk
    cases k with
    | zero => exact hfirst
    | succ k =>
        have hlater := hrest k (Nat.lt_of_succ_lt_succ hk)
        rwa [Nat.add_assoc, Nat.add_comm 1] at hlater

instance decidableAnswers (counters : JobCounters) (count : ℕ) :
    Decidable (Answers reader counters count) :=
  inferInstanceAs (Decidable (_ → _))

theorem readBigEndianUInt32_append {n : ℕ} (h : n < 2 ^ 32) (rest : List UInt8) :
    readBigEndianUInt32 (bigEndian n ++ rest) = some (n, rest) := by
  have hlength : (bigEndian n).length = 4 := by
    rw [bigEndian, List.length_reverse, Bitcoin.length_littleEndian]
  rw [readBigEndianUInt32, if_neg (by rw [List.length_append]; omega), ← hlength, List.take_left,
    List.drop_left, bigEndian, List.reverse_reverse,
    Progpow.toBigInteger_littleEndian (by simpa using h)]

theorem readBigEndianUInt32_bind {α : Type} {n : ℕ} (h : n < 2 ^ 32) (rest : List UInt8)
    (f : ℕ × List UInt8 → Option α) :
    (readBigEndianUInt32 (bigEndian n ++ rest) >>= f) = f (n, rest) := by
  rw [readBigEndianUInt32_append h]
  rfl

theorem readBytes_append {bytes : List UInt8} (h : bytes.length < 2 ^ 31) (rest : List UInt8) :
    readBytes bytes.length (bytes ++ rest) = some (bytes, rest) := by
  have hpos : ¬ toInt32 bytes.length < 0 := by
    rw [toInt32, Int.bmod_eq_of_le (by omega) (by omega)]
    omega
  rw [readBytes, if_neg hpos, List.take_left, List.drop_left]

theorem readBlob_bind {α : Type} {bytes : List UInt8} (h : bytes.length < 2 ^ 31)
    (rest : List UInt8) (f : List UInt8 × List UInt8 → Option α) :
    (readBlob (blob bytes ++ rest) >>= f) = f (bytes, rest) := by
  have hblob : readBlob (blob bytes ++ rest) = some (bytes, rest) := by
    rw [readBlob, blob, List.append_assoc, readBigEndianUInt32_bind (by omega)]
    exact readBytes_append h rest
  rw [hblob]
  rfl

theorem readJob_append (counters : JobCounters) {job : MiningJob}
    (hlength : (job.bytes reader.socketMiningProtocol).length < 2 ^ 31) (rest : List UInt8) :
    readJob reader counters (job.bytes reader.socketMiningProtocol ++ rest) =
      if Answers reader counters 1 then
        some (blockTemplate reader counters job, counters.next reader, rest)
      else none := by
  have hlengths : job.headerBlob.length < 2 ^ 31 ∧ job.txsBlob.length < 2 ^ 31 ∧
      job.targetBlob.length < 2 ^ 31 := by
    simp only [MiningJob.bytes, blob, List.length_append] at hlength
    omega
  obtain ⟨hheader, htxs, htarget⟩ := hlengths
  have hfrom := job.fromGroup.toNat_lt
  have hto := job.toGroup.toNat_lt
  have hheight := job.height.toNat_lt
  rw [readJob, MiningJob.bytes]
  simp only [List.append_assoc]
  rw [readBigEndianUInt32_bind hfrom]
  dsimp only
  rw [readBigEndianUInt32_bind hto]
  dsimp only
  by_cases hprotocol : reader.socketMiningProtocol = 0
  · have hanswers : Answers reader counters 1 ↔
        (reader.chainInfo counters.chainInfos).isSome := by
      rw [Answers]
      constructor
      · intro h
        exact h hprotocol 0 Nat.zero_lt_one
      · intro h _ k hk
        rw [Nat.lt_one_iff.mp hk]
        exact h
    have hversion : ¬ 0 < reader.socketMiningProtocol := by omega
    rw [if_pos hprotocol]
    cases hinfo : reader.chainInfo counters.chainInfos with
    | none =>
        rw [if_neg (c := Answers reader counters 1) (by rw [hanswers, hinfo]; simp)]
        rfl
    | some height =>
        rw [if_pos (c := Answers reader counters 1) (by rw [hanswers, hinfo]; rfl), Option.map_some,
          if_neg hversion, List.nil_append]
        rw [Option.bind_eq_bind, Option.bind_some]
        dsimp only
        rw [readBlob_bind hheader]
        dsimp only
        rw [readBlob_bind htxs]
        dsimp only
        rw [readBlob_bind htarget]
        dsimp only
        rw [if_neg hversion]
        simp [blockTemplate, JobCounters.next, hprotocol, hinfo]
  · have hanswers : Answers reader counters 1 := fun h => absurd h hprotocol
    have hversion : 0 < reader.socketMiningProtocol := Nat.pos_of_ne_zero hprotocol
    rw [if_neg hprotocol, if_pos hanswers, if_pos hversion]
    rw [Option.bind_eq_bind, Option.bind_some]
    dsimp only
    rw [readBlob_bind hheader]
    dsimp only
    rw [readBlob_bind htxs]
    dsimp only
    rw [readBlob_bind htarget]
    dsimp only
    rw [if_pos hversion, readBigEndianUInt32_bind hheight]
    simp [blockTemplate, JobCounters.next, hprotocol]

theorem length_bigEndian (n : ℕ) : (bigEndian n).length = 4 := by
  rw [bigEndian, List.length_reverse, Bitcoin.length_littleEndian]

/-- The jobs of a message follow each other. -/
theorem readJobs_append (counters : JobCounters) {jobs : List MiningJob}
    (hlength : (jobs.flatMap (MiningJob.bytes reader.socketMiningProtocol)).length < 2 ^ 31)
    (rest : List UInt8) :
    readJobs reader jobs.length counters
        (jobs.flatMap (MiningJob.bytes reader.socketMiningProtocol) ++ rest) =
      if Answers reader counters jobs.length then
        some ((blockTemplates reader counters jobs).1, (blockTemplates reader counters jobs).2,
          rest)
      else none := by
  induction jobs generalizing counters with
  | nil =>
      have hanswers : Answers reader counters 0 := fun _ k hk => absurd hk (Nat.not_lt_zero k)
      rw [List.length_nil, readJobs, if_pos hanswers]
      rfl
  | cons job jobs ih =>
      rw [List.flatMap_cons, List.length_append] at hlength
      rw [List.length_cons, readJobs, List.flatMap_cons, List.append_assoc,
        readJob_append counters (by omega)]
      by_cases hfirst : Answers reader counters 1
      · rw [if_pos hfirst, Option.bind_eq_bind, Option.bind_some]
        dsimp only
        rw [ih (counters.next reader) (by omega)]
        rw [answers_succ] at hfirst
        by_cases hrest : Answers reader (counters.next reader) jobs.length
        · rw [if_pos hrest, if_pos (answers_succ.mpr ⟨hfirst.1, hrest⟩)]
          rfl
        · rw [if_neg hrest, if_neg fun h => hrest (answers_succ.mp h).2]
          rfl
      · have hnot : ¬ Answers reader counters (jobs.length + 1) := by
          intro h
          refine hfirst (answers_succ.mpr ⟨(answers_succ.mp h).1, ?_⟩)
          exact fun _ k hk => absurd hk (Nat.not_lt_zero k)
        rw [if_neg hfirst, if_neg hnot]
        rfl

theorem readMessageType_append (version type : UInt8) (rest : List UInt8) :
    readMessageType reader (messageType reader.socketMiningProtocol version type ++ rest) =
      some (if 0 < reader.socketMiningProtocol then version else miningProtocolVersion, type,
        rest) := by
  rw [readMessageType, messageType]
  by_cases hversion : 0 < reader.socketMiningProtocol
  · rw [if_pos hversion, if_pos hversion, if_pos hversion]
    rfl
  · rw [if_neg hversion, if_neg hversion, if_neg hversion]
    rfl

section front

variable {message : Message reader.socketMiningProtocol} {counters : JobCounters}

theorem length_jobs_le (socketMiningProtocol : ℕ) (jobs : List MiningJob) :
    jobs.length ≤ (jobs.flatMap (MiningJob.bytes socketMiningProtocol)).length := by
  induction jobs with
  | nil => exact Nat.zero_le _
  | cons job jobs ih =>
      rw [List.flatMap_cons, List.length_append, List.length_cons, MiningJob.bytes]
      simp only [List.length_append, length_bigEndian]
      omega

/-- A message with jobs that is all there is published, unless the node gives no height. -/
theorem digestMessage_jobs {jobs : List MiningJob} (hbody : message.body = .jobs jobs)
    (more : List UInt8) :
    digestMessage reader counters (message.bytes ++ more) =
      if Answers reader counters jobs.length then
        .publish (blockTemplates reader counters jobs).1
          (blockTemplates reader counters jobs).2 more
      else .failed := by
  have hlength := message.length_lt
  have hsize : ((message.body.bytes reader.socketMiningProtocol).length + messageHeaderSize) %
      2 ^ 32 = message.bytes.length := by
    rw [Nat.mod_eq_of_lt (by omega), Message.bytes, List.length_append, length_bigEndian,
      Nat.add_comm]
    rfl
  rw [digestMessage, Message.bytes, List.append_assoc, readBigEndianUInt32_append (by omega)]
  dsimp only
  rw [hsize, ← List.append_assoc, ← Message.bytes,
    if_pos (by rw [List.length_append]; exact Nat.le_add_right _ _), List.drop_left]
  rw [hbody, MessageBody.bytes, List.length_append, List.length_append] at hlength
  have hjobs := length_jobs_le reader.socketMiningProtocol jobs
  rw [hbody, MessageBody.bytes, List.append_assoc, List.append_assoc, readMessageType_append]
  dsimp only
  rw [if_pos ⟨ite_self _, rfl⟩, readBigEndianUInt32_append (by omega), Option.bind_some]
  dsimp only
  rw [readJobs_append counters (by omega)]
  by_cases hanswers : Answers reader counters jobs.length
  · rw [if_pos hanswers, if_pos hanswers]
  · rw [if_neg hanswers, if_neg hanswers]

/-- A message of another type stays at the front. -/
theorem digestMessage_unused {version type : UInt8} {payload : List UInt8}
    (hbody : message.body = .unused version type payload) (more : List UInt8) :
    digestMessage reader counters (message.bytes ++ more) = .wait := by
  have hlength := message.length_lt
  have htype := message.hasOwnType
  rw [hbody] at htype
  rw [digestMessage, Message.bytes, List.append_assoc, readBigEndianUInt32_append (by omega)]
  dsimp only
  split
  · rw [hbody, MessageBody.bytes, List.append_assoc, readMessageType_append]
    dsimp only
    rw [if_neg]
    rintro ⟨hversion, hjobs⟩
    obtain hother | ⟨hprotocol, hother⟩ := htype
    · exact hother hjobs
    · rw [if_pos hprotocol] at hversion
      exact hother hversion
  · rfl

/-- A message that is not all there is waited for. -/
theorem digestMessage_short {dynamicBuffer : List UInt8} (hstart : dynamicBuffer <+: message.bytes)
    (hshort : dynamicBuffer.length < message.bytes.length) :
    digestMessage reader counters dynamicBuffer = .wait := by
  have hlength := message.length_lt
  have hbytes : message.bytes.length =
      (message.body.bytes reader.socketMiningProtocol).length + messageHeaderSize := by
    rw [Message.bytes, List.length_append, length_bigEndian, Nat.add_comm]
    rfl
  rw [digestMessage]
  by_cases hheader : dynamicBuffer.length < 4
  · rw [readBigEndianUInt32, if_pos hheader]
  · obtain ⟨more, hmore⟩ := hstart
    rw [Message.bytes, List.append_eq_append_iff] at hmore
    obtain ⟨others, hsplit, -⟩ | ⟨others, rfl, -⟩ := hmore
    · have hfour := length_bigEndian (message.body.bytes reader.socketMiningProtocol).length
      rw [hsplit, List.length_append] at hfour
      have hnil : others = [] := List.length_eq_zero_iff.mp (by omega)
      rw [hnil, List.append_nil] at hsplit
      rw [← hsplit, ← List.append_nil (bigEndian _), readBigEndianUInt32_append (by omega)]
      dsimp only
      rw [if_neg]
      rw [Nat.mod_eq_of_lt (by omega), List.append_nil, length_bigEndian, ← hbytes]
      rw [← hsplit, length_bigEndian] at hshort
      omega
    · rw [readBigEndianUInt32_append (by omega)]
      dsimp only
      rw [if_neg]
      rw [Nat.mod_eq_of_lt (by omega), ← hbytes]
      omega

end front

variable (reader) in
/-- What is published of messages. -/
def publishedOf : JobCounters → List (Message reader.socketMiningProtocol) →
    List (List AlephiumBlockTemplate)
  | _, [] => []
  | counters, message :: messages =>
      match message.body with
      | .jobs miningJobs =>
          if Answers reader counters miningJobs.length then
            (blockTemplates reader counters miningJobs).1 ::
              publishedOf (blockTemplates reader counters miningJobs).2 messages
          else []
      | .unused _ _ _ => []

theorem publishedOf_jobs {counters : JobCounters} {message : Message reader.socketMiningProtocol}
    {messages : List (Message reader.socketMiningProtocol)} {jobs : List MiningJob}
    (hbody : message.body = .jobs jobs) :
    publishedOf reader counters (message :: messages) =
      if Answers reader counters jobs.length then
        (blockTemplates reader counters jobs).1 ::
          publishedOf reader (blockTemplates reader counters jobs).2 messages
      else [] := by
  rw [publishedOf, hbody]

theorem publishedOf_unused {counters : JobCounters} {message : Message reader.socketMiningProtocol}
    {messages : List (Message reader.socketMiningProtocol)} {version type : UInt8}
    {payload : List UInt8} (hbody : message.body = .unused version type payload) :
    publishedOf reader counters (message :: messages) = [] := by
  rw [publishedOf, hbody]

/-- A connection with messages to come, which has published what it will publish but for these. -/
structure IsReading (reader : JobReader) (published : List (List AlephiumBlockTemplate))
    (unread : List UInt8) (messages : List (Message reader.socketMiningProtocol))
    (stream : JobStream) : Prop where
  isOpen : stream.isOpen = true
  buffer : stream.dynamicBuffer ++ unread = streamOf messages
  published : stream.published ++ publishedOf reader stream.counters messages = published

/-- A connection that waits for more bytes, or is over. -/
def IsDigested (published : List (List AlephiumBlockTemplate)) (unread : List UInt8)
    (reader : JobReader) (stream : JobStream) : Prop :=
  stream.isOpen = false ∧ stream.published = published ∨
    ∃ messages, IsReading reader published unread messages stream ∧
      digestMessage reader stream.counters stream.dynamicBuffer = .wait

theorem isDigested_of_wait {published : List (List AlephiumBlockTemplate)} {unread : List UInt8}
    {messages : List (Message reader.socketMiningProtocol)} {stream : JobStream} {fuel : ℕ}
    (h : IsReading reader published unread messages stream)
    (hwait : digestMessage reader stream.counters stream.dynamicBuffer = .wait) :
    IsDigested published unread reader (stream.digest reader fuel) := by
  have hsame : stream.digest reader fuel = stream := by
    cases fuel with
    | zero => rfl
    | succ fuel => rw [JobStream.digest, hwait]
  rw [hsame]
  exact Or.inr ⟨messages, h, hwait⟩

/-- The inner loop: the messages that are there are published one after the other. -/
theorem IsReading.digest {published : List (List AlephiumBlockTemplate)} {unread : List UInt8}
    {messages : List (Message reader.socketMiningProtocol)} {stream : JobStream} {fuel : ℕ}
    (h : IsReading reader published unread messages stream)
    (hfuel : stream.dynamicBuffer.length ≤ fuel) :
    IsDigested published unread reader (stream.digest reader fuel) := by
  induction messages generalizing stream fuel with
  | nil =>
      have hempty := (List.append_eq_nil_iff.mp h.buffer).1
      refine isDigested_of_wait h ?_
      rw [hempty]
      rfl
  | cons message messages ih =>
      have hbuffer := h.buffer
      rw [streamOf, List.flatMap_cons, List.append_eq_append_iff] at hbuffer
      -- all of the message is there, or a part that is waited for
      have hsplit : (∃ more, stream.dynamicBuffer = message.bytes ++ more ∧
          more ++ unread = streamOf messages) ∨
          stream.dynamicBuffer <+: message.bytes ∧
            stream.dynamicBuffer.length < message.bytes.length := by
        obtain ⟨others, hothers, hunread⟩ | ⟨more, hmore, hunread⟩ := hbuffer
        · by_cases hnil : others = []
          · subst hnil
            exact Or.inl ⟨[], by rw [hothers, List.append_nil, List.append_nil],
              by rw [hunread]; rfl⟩
          · refine Or.inr ⟨⟨others, hothers.symm⟩, ?_⟩
            rw [hothers, List.length_append]
            exact Nat.lt_add_of_pos_right (List.length_pos_of_ne_nil hnil)
        · exact Or.inl ⟨more, hmore, hunread.symm⟩
      obtain ⟨more, hmore, hunread⟩ | ⟨hstart, hshort⟩ := hsplit
      · cases hbody : message.body with
        | unused version type payload =>
            refine isDigested_of_wait h ?_
            rw [hmore]
            exact digestMessage_unused hbody more
        | jobs jobs =>
            have hpos : 0 < message.bytes.length := by
              rw [Message.bytes, List.length_append, length_bigEndian]
              omega
            have hdigest : digestMessage reader stream.counters (message.bytes ++ more) = _ :=
              digestMessage_jobs hbody more
            have hpublished := h.published
            rw [publishedOf_jobs hbody] at hpublished
            rw [hmore, List.length_append] at hfuel
            obtain ⟨fuel, rfl⟩ := Nat.exists_eq_succ_of_ne_zero
              (show fuel ≠ 0 by omega)
            rw [JobStream.digest, hmore, hdigest]
            by_cases hanswers : Answers reader stream.counters jobs.length
            · rw [if_pos hanswers]
              rw [if_pos hanswers] at hpublished
              refine ih ⟨h.isOpen, hunread, ?_⟩ (by dsimp only; omega)
              rw [← hpublished, List.append_assoc]
              rfl
            · rw [if_neg hanswers]
              rw [if_neg hanswers, List.append_nil] at hpublished
              exact Or.inl ⟨rfl, hpublished⟩
      · exact isDigested_of_wait h (digestMessage_short hstart hshort)

theorem IsDigested.read {published : List (List AlephiumBlockTemplate)}
    {chunk unread : List UInt8} {stream : JobStream}
    (h : IsDigested published (chunk ++ unread) reader stream) :
    IsDigested published unread reader (stream.read reader chunk) := by
  obtain ⟨hclosed, hpublished⟩ | ⟨messages, hreading, -⟩ := h
  · have hsame : stream.read reader chunk = stream := by
      rw [JobStream.read, hclosed]
      rfl
    rw [hsame]
    exact Or.inl ⟨hclosed, hpublished⟩
  · rw [JobStream.read, if_pos hreading.isOpen]
    have hlonger : IsReading reader published unread messages
        { stream with dynamicBuffer := stream.dynamicBuffer ++ chunk } := by
      refine ⟨hreading.isOpen, ?_, hreading.published⟩
      rw [← hreading.buffer, List.append_assoc]
    exact hlonger.digest (Nat.le_refl _)

theorem IsDigested.reads {published : List (List AlephiumBlockTemplate)}
    {chunks : List (List UInt8)} {stream : JobStream}
    (h : IsDigested published chunks.flatten reader stream) :
    IsDigested published [] reader (chunks.foldl (JobStream.read reader) stream) := by
  induction chunks generalizing stream with
  | nil => exact h
  | cons chunk chunks ih =>
      rw [List.flatten_cons] at h
      exact ih h.read

/-- Nothing that waits behind the last byte would be published. -/
theorem published_of_isDigested {published : List (List AlephiumBlockTemplate)}
    {stream : JobStream} (h : IsDigested published [] reader stream) :
    stream.published = published := by
  obtain ⟨-, hpublished⟩ | ⟨messages, hreading, hwait⟩ := h
  · exact hpublished
  · have hbuffer := hreading.buffer
    have hpublished := hreading.published
    rw [List.append_nil] at hbuffer
    cases messages with
    | nil => rwa [publishedOf, List.append_nil] at hpublished
    | cons message messages =>
        cases hbody : message.body with
        | unused version type payload =>
            rwa [publishedOf_unused hbody, List.append_nil] at hpublished
        | jobs jobs =>
            rw [hbuffer, streamOf, List.flatMap_cons, digestMessage_jobs hbody] at hwait
            split at hwait
            · cases hwait
            · cases hwait

/-- The partition of the stream does not matter. -/
theorem published_readAll {messages : List (Message reader.socketMiningProtocol)} {bufferSize : ℕ}
    (reads : Reads (streamOf messages) bufferSize) :
    (readAll reader reads.chunks).published = publishedOf reader {} messages := by
  have hstart : IsDigested (publishedOf reader {} messages) reads.chunks.flatten reader {} :=
    Or.inr ⟨messages, ⟨rfl, reads.flatten_eq, rfl⟩, rfl⟩
  exact published_of_isDigested hstart.reads

/-- How many jobs messages have. -/
def jobCount (messages : List (Message reader.socketMiningProtocol)) : ℕ :=
  (messages.map fun message => message.body.jobCount).sum

/-- No message with jobs comes behind one that is not used. -/
def JobsFirst (messages : List (Message reader.socketMiningProtocol)) : Prop :=
  messages.Pairwise fun first second => first.body.isJobs = false → second.body.isJobs = false

theorem chainInfos_blockTemplates (hprotocol : reader.socketMiningProtocol = 0)
    (counters : JobCounters) (jobs : List MiningJob) :
    (blockTemplates reader counters jobs).2.chainInfos = counters.chainInfos + jobs.length := by
  induction jobs generalizing counters with
  | nil => rfl
  | cons job jobs ih =>
      have hnext : (counters.next reader).chainInfos = counters.chainInfos + 1 := if_pos hprotocol
      rw [blockTemplates]
      dsimp only
      rw [ih, hnext, List.length_cons, Nat.add_assoc, Nat.add_comm 1]

/-- The answers to the jobs of a message and to those behind it. -/
theorem answers_add (counters : JobCounters) (jobs : List MiningJob) (count : ℕ) :
    Answers reader counters (jobs.length + count) ↔
      Answers reader counters jobs.length ∧
        Answers reader (blockTemplates reader counters jobs).2 count := by
  rw [Answers, Answers, Answers, ← forall_and]
  refine forall_congr' fun hprotocol => ?_
  rw [chainInfos_blockTemplates hprotocol]
  constructor
  · intro h
    refine ⟨fun k hk => h k (by omega), fun k hk => ?_⟩
    rw [Nat.add_assoc]
    exact h (jobs.length + k) (by omega)
  · rintro ⟨hfirst, hrest⟩ k hk
    by_cases hlt : k < jobs.length
    · exact hfirst k hlt
    · have hlater := hrest (k - jobs.length) (by omega)
      rwa [Nat.add_assoc, Nat.add_sub_cancel' (by omega)] at hlater

theorem jobsOf_eq_nil_iff {counters : JobCounters}
    {messages : List (Message reader.socketMiningProtocol)} :
    jobsOf reader counters messages = [] ↔
      ∀ message ∈ messages, message.body.isJobs = false := by
  induction messages generalizing counters with
  | nil => exact iff_of_true rfl fun _ hmem => absurd hmem List.not_mem_nil
  | cons message messages ih =>
      rw [jobsOf, List.forall_mem_cons]
      cases message.body with
      | jobs jobs => exact iff_of_false (List.cons_ne_nil _ _) fun h => Bool.noConfusion h.1
      | unused version type payload => exact ih.trans (and_iff_right rfl).symm

theorem jobCount_eq_zero {messages : List (Message reader.socketMiningProtocol)}
    (h : ∀ message ∈ messages, message.body.isJobs = false) : jobCount messages = 0 := by
  rw [jobCount, List.sum_eq_zero]
  intro count hcount
  obtain ⟨message, hmem, rfl⟩ := List.mem_map.mp hcount
  have hunused := h message hmem
  cases hbody : message.body with
  | jobs jobs =>
      rw [hbody] at hunused
      cases hunused
  | unused version type payload => rfl

theorem publishedOf_eq_jobsOf_iff (counters : JobCounters)
    (messages : List (Message reader.socketMiningProtocol)) :
    publishedOf reader counters messages = jobsOf reader counters messages ↔
      JobsFirst messages ∧ Answers reader counters (jobCount messages) := by
  induction messages generalizing counters with
  | nil =>
      refine iff_of_true rfl ⟨List.Pairwise.nil, fun _ k hk => ?_⟩
      exact absurd hk (Nat.not_lt_zero k)
  | cons message messages ih =>
      rw [JobsFirst, List.pairwise_cons, publishedOf, jobsOf, jobCount, List.map_cons,
        List.sum_cons]
      cases message.body with
      | jobs jobs =>
          dsimp only
          rw [MessageBody.jobCount, answers_add]
          have hskip : (∀ second ∈ messages, (MessageBody.jobs jobs).isJobs = false →
              second.body.isJobs = false) ↔ True :=
            iff_true_intro fun _ _ hjobs => by cases hjobs
          rw [hskip, true_and]
          by_cases hanswers : Answers reader counters jobs.length
          · rw [if_pos hanswers, List.cons.injEq, and_iff_right rfl, ih]
            exact and_congr_right fun _ => (and_iff_right hanswers).symm
          · rw [if_neg hanswers]
            exact iff_of_false (List.cons_ne_nil _ _).symm fun h => hanswers h.2.1
      | unused version type payload =>
          dsimp only
          rw [MessageBody.jobCount, Nat.zero_add, eq_comm, jobsOf_eq_nil_iff]
          constructor
          · intro hunused
            refine ⟨⟨fun second hmem _ => hunused second hmem, ?_⟩, fun _ k hk => ?_⟩
            · exact List.pairwise_of_forall_mem_list fun _ _ second hmem _ => hunused second hmem
            · rw [← jobCount, jobCount_eq_zero hunused] at hk
              exact absurd hk (Nat.not_lt_zero k)
          · rintro ⟨⟨hfirst, -⟩, -⟩ second hmem
            exact hfirst second hmem rfl

/-- The jobs of the messages are published just if messages that are not used come last, and the
node gives every height that it is asked for. -/
theorem published_eq_iff_jobsFirst {messages : List (Message reader.socketMiningProtocol)}
    {bufferSize : ℕ} (reads : Reads (streamOf messages) bufferSize) :
    (readAll reader reads.chunks).published = jobsOf reader {} messages ↔
      JobsFirst messages ∧ Answers reader {} (jobCount messages) := by
  rw [published_readAll, publishedOf_eq_jobsOf_iff]

end published

end Miningcore.Alephium
