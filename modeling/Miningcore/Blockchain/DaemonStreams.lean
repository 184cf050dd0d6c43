import Miningcore.Blockchain.Alephium.JobStream
import Miningcore.Blockchain.Beam.JobStream

/-!
# The job streams of daemons

The readers of Alephium and Beam both follow the stream of a node. The one keeps what is
incomplete, and stops at a message that it does not use. The other goes on behind every
message, and keeps nothing.
-/

namespace Miningcore

open Foundation

/-- What the two readers make of the streams of their nodes: the reader of Alephium publishes the
jobs of all messages just if those that are not used come last and every height is given, and the
reader of Beam just if no read ends inside a message in front of the last job, and all that are in
front of it can be read. -/
theorem daemonStreams_iff (reader : Alephium.JobReader)
    (binary : List (Alephium.Message reader.socketMiningProtocol)) {bufferSize : ℕ}
    (binaryReads : Reads (Alephium.streamOf binary) bufferSize)
    (deserialize : List Char → Option (Option Beam.BeamLoginResponse))
    (lines : List Beam.Message)
    (hthrows : ∀ message ∈ lines, Beam.ThrowsOnFragments deserialize message)
    (lineReads : Reads (Beam.streamOf lines) Beam.receiveBufferSize) :
    ((Alephium.readAll reader binaryReads.chunks).published =
        Alephium.jobsOf reader {} binary ↔
      Alephium.JobsFirst binary ∧ Alephium.Answers reader {} (Alephium.jobCount binary)) ∧
    ((Beam.readAll deserialize lineReads.chunks).published =
        (lines.filter Beam.Message.isJob).map Beam.Message.text ↔
      Beam.ReadsWhole deserialize lineReads.chunks 0 lines) :=
  ⟨Alephium.published_eq_iff_jobsFirst binaryReads,
    Beam.published_eq_iff_readsWhole hthrows lineReads⟩

namespace DaemonStreams

/-- A node of version 1 of the protocol. -/
def reader : Alephium.JobReader where
  socketMiningProtocol := 1
  chainInfo _ := none

def miningJob : Alephium.MiningJob where
  fromGroup := 0
  toGroup := 1
  headerBlob := [0xAA]
  txsBlob := []
  targetBlob := [0xFF]
  height := 9

theorem length_lt_jobs :
    ((Alephium.MessageBody.jobs [miningJob]).bytes 1).length + Alephium.messageHeaderSize <
      2 ^ 31 := by decide +kernel

def jobs : Alephium.Message 1 where
  body := .jobs [miningJob]
  hasOwnType := trivial
  length_lt := length_lt_jobs

theorem hasOwnType_submitResult :
    (Alephium.MessageBody.unused 1 1 [0]).HasOwnType 1 := Or.inl (by decide)

theorem length_lt_submitResult :
    ((Alephium.MessageBody.unused 1 1 [0]).bytes 1).length + Alephium.messageHeaderSize <
      2 ^ 31 := by decide +kernel

/-- The result of a submitted block. -/
def submitResult : Alephium.Message 1 where
  body := .unused 1 1 [0]
  hasOwnType := hasOwnType_submitResult
  length_lt := length_lt_submitResult

theorem isBreakByte_lineFeed : ∀ b ∈ [10], Beam.isBreakByte b = true :=
  List.all_eq_true.mp (by decide)

/-- A line that ends in a line feed. -/
def object (line : List UInt8) (hline : ∀ b ∈ line, Beam.isBreakByte b = false)
    (hlast : line.getLast? = some 0x7D) : Beam.Message where
  line
  lineEnd := [10]
  isBreakByte_line := hline
  getLast_line := hlast
  isBreakByte_lineEnd := isBreakByte_lineFeed
  lineEnd_ne_nil := List.cons_ne_nil _ _

def bytesOf (text : String) : List UInt8 := text.toList.map fun c => c.toNat.toUInt8

def loginLine : List UInt8 := bytesOf "\x7b\"id\":\"login\"\x7d"

def jobLine : List UInt8 := bytesOf "\x7b\"method\":\"job\"\x7d"

theorem isBreakByte_loginLine : ∀ b ∈ loginLine, Beam.isBreakByte b = false := by
  have hall : loginLine.all (fun b => !Beam.isBreakByte b) = true := by decide
  simpa using hall

theorem isBreakByte_jobLine : ∀ b ∈ jobLine, Beam.isBreakByte b = false := by
  have hall : jobLine.all (fun b => !Beam.isBreakByte b) = true := by decide
  simpa using hall

def login : Beam.Message := object loginLine isBreakByte_loginLine rfl

def job : Beam.Message := object jobLine isBreakByte_jobLine rfl

/-- An object has its closing bracket. -/
def deserialize (text : List Char) : Option (Option Beam.BeamLoginResponse) :=
  if text.getLast? = some (Char.ofNat 0x7D) then some (some { nonceprefix := none }) else none

theorem throwsOnFragments (message : Beam.Message) (hmem : message ∈ [login, job]) :
    Beam.ThrowsOnFragments deserialize message := by
  have hinits : ∀ message ∈ [login, job], ∀ fragment ∈ message.line.inits,
      fragment ≠ [] → fragment ≠ message.line →
        deserialize (Utf8.decode fragment) = none := by decide +kernel
  intro fragment hfragment
  exact hinits message hmem fragment ((List.mem_inits _ _).mpr hfragment)

end DaemonStreams

open DaemonStreams in
theorem daemonStreams_oneRead :
    (Alephium.readAll reader [Alephium.streamOf [jobs, submitResult]]).published =
        Alephium.jobsOf reader {} [jobs, submitResult] ∧
      (Beam.readAll deserialize [Beam.streamOf [login, job]]).published =
        ([login, job].filter Beam.Message.isJob).map Beam.Message.text := by
  have h := daemonStreams_iff reader [jobs, submitResult]
    (⟨[Alephium.streamOf [jobs, submitResult]], by decide +kernel, by decide +kernel,
      by decide +kernel⟩ : Reads _ 131072)
    deserialize [login, job] throwsOnFragments
    ⟨[Beam.streamOf [login, job]], by decide +kernel, by decide +kernel, by decide +kernel⟩
  refine ⟨h.1.mpr ⟨?_, ?_⟩, h.2.mpr ?_⟩
  · rw [Alephium.JobsFirst]
    decide
  · exact fun hprotocol => absurd hprotocol (by decide)
  · refine ⟨fun _ => ⟨not_isCut_singleton (by decide +kernel), fun _ => by decide +kernel⟩,
      fun _ => ⟨not_isCut_singleton (by decide +kernel), fun _ => by decide +kernel⟩, trivial⟩

open DaemonStreams in
/-- Jobs behind a message that is not used are lost, and so are jobs in which a read ends. -/
theorem daemonStreams_lost :
    (Alephium.readAll reader [Alephium.streamOf [submitResult, jobs]]).published = [] ∧
      Alephium.jobsOf reader {} [submitResult, jobs] ≠ [] ∧
      (Beam.readAll deserialize [job.bytes.take 5, job.bytes.drop 5]).published = [] ∧
      ([job].filter Beam.Message.isJob).map Beam.Message.text ≠ [] := by
  decide +kernel

end Miningcore
