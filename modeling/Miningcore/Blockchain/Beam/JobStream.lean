import Miningcore.Blockchain.Beam.BlockSubmission
import Miningcore.Foundation.LineSplitting
import Miningcore.Foundation.Utf8

/-!
# The lines of a Beam node

What a read brings is decoded and split into lines by itself. Lines with the word `job` are
published, and all others are read as the answer to a login.

## Implementation notes

A line that cannot be read ends the connection. The characters of a text are code points.
-/

namespace Miningcore.Beam

open Foundation

def isLineBreak (c : Char) : Bool := c = '\r' || c = '\n'

/-- `Split` at the three kinds of line ends. -/
def splitLines : List Char → List (List Char)
  | [] => [[]]
  | '\r' :: '\n' :: rest => [] :: splitLines rest
  | c :: rest =>
      if isLineBreak c then [] :: splitLines rest else (splitLines rest).modifyHead (c :: ·)

def containsJob (line : List Char) : Bool := decide (['j', 'o', 'b'] <:+: line)

/-- A connection to the node. -/
structure Stream where
  manager : ManagerState := {}
  /-- The lines that were given to `UpdateJob`. -/
  published : List (List Char) := []
  isOpen : Bool := true

section reader

variable (deserialize : List Char → Option (Option BeamLoginResponse))

/-- `none` of the deserializer is an exception, which ends the connection. -/
def Stream.digestLine (stream : Stream) (line : List Char) : Stream :=
  if stream.isOpen then
    if containsJob line then { stream with published := stream.published ++ [line] }
    else
      match deserialize line with
      | none => { stream with isOpen := false }
      | some response => { stream with manager := stream.manager.readLoginResponse response }
  else stream

/-- A read of at least a byte. -/
def Stream.read (stream : Stream) (receivedBytes : List UInt8) : Stream :=
  ((splitLines (Utf8.decode receivedBytes)).filter fun line => !line.isEmpty).foldl
    (digestLine deserialize) stream

def readAll (chunks : List (List UInt8)) : Stream := chunks.foldl (Stream.read deserialize) {}

end reader

def isBreakByte (b : UInt8) : Bool := b = 13 || b = 10

/-- A JSON object on a line of its own, and what ends the line. -/
structure Message where
  line : List UInt8
  lineEnd : List UInt8
  isBreakByte_line : ∀ b ∈ line, isBreakByte b = false
  getLast_line : line.getLast? = some 0x7D
  isBreakByte_lineEnd : ∀ b ∈ lineEnd, isBreakByte b = true
  lineEnd_ne_nil : lineEnd ≠ []

namespace Message

def text (message : Message) : List Char := Utf8.decode message.line

/-- The messages with jobs are those in which the word is found. -/
def isJob (message : Message) : Bool := containsJob message.text

def bytes (message : Message) : List UInt8 := message.line ++ message.lineEnd

variable (message : Message)

theorem line_ne_nil : message.line ≠ [] := by
  intro hnil
  have hlast := message.getLast_line
  rw [hnil] at hlast
  cases hlast

end Message

/-- What the node sends. -/
def streamOf (messages : List Message) : List UInt8 := messages.flatMap Message.bytes

/-- No read ends inside a message before the last job, and the messages between the jobs can be read
as the answer to a login. -/
def ReadsWhole (deserialize : List Char → Option (Option BeamLoginResponse))
    (chunks : List (List UInt8)) : ℕ → List Message → Prop
  | _, [] => True
  | position, message :: messages =>
      ((message :: messages).any Message.isJob →
        ¬ IsCut chunks position message.line.length ∧
          (message.isJob = false → (deserialize message.text).isSome)) ∧
      ReadsWhole deserialize chunks (position + message.bytes.length) messages

section lines

/-- The text of the line feed with a carriage return in front is split once more without it. -/
theorem exists_splitLines (text : List Char) :
    ∃ first others others', splitLines text = first :: others ∧
      text.splitOnP isLineBreak = first :: others' ∧
      (others.filter fun line => !line.isEmpty) = others'.filter fun line => !line.isEmpty := by
  induction text using splitLines.induct with
  | case1 => exact ⟨[], [], [], rfl, by simp, rfl⟩
  | case2 rest ih =>
      obtain ⟨first, others, others', hsplit, hsplit', hothers⟩ := ih
      refine ⟨[], first :: others, [] :: first :: others', ?_, ?_, ?_⟩
      · rw [splitLines, hsplit]
      · have hreturn : isLineBreak '\r' = true := by decide
        have hfeed : isLineBreak '\n' = true := by decide
        rw [List.splitOnP_cons_eq_if_modifyHead, if_pos hreturn,
          List.splitOnP_cons_eq_if_modifyHead, if_pos hfeed, hsplit']
      · rw [List.filter_cons, List.filter_cons, List.filter_cons, hothers]
        rfl
  | case3 c rest hnot hbreak ih =>
      obtain ⟨first, others, others', hsplit, hsplit', hothers⟩ := ih
      refine ⟨[], first :: others, first :: others', ?_, ?_, ?_⟩
      · rw [splitLines, if_pos hbreak, hsplit]
        exact hnot
      · rw [List.splitOnP_cons_eq_if_modifyHead, if_pos hbreak, hsplit']
      · rw [List.filter_cons, List.filter_cons, hothers]
  | case4 c rest hnot hbreak ih =>
      obtain ⟨first, others, others', hsplit, hsplit', hothers⟩ := ih
      refine ⟨c :: first, others, others', ?_, ?_, hothers⟩
      · rw [splitLines, if_neg hbreak, hsplit]
        · rfl
        · exact hnot
      · rw [List.splitOnP_cons_eq_if_modifyHead, if_neg hbreak, hsplit']
        rfl

theorem filter_splitLines (text : List Char) :
    ((splitLines text).filter fun line => !line.isEmpty) = linesOf isLineBreak text := by
  obtain ⟨first, others, others', hsplit, hsplit', hothers⟩ := exists_splitLines text
  rw [linesOf, hsplit, hsplit', List.filter_cons, List.filter_cons, hothers]

theorem toNat_of_isBreakByte {b : UInt8} (h : isBreakByte b = true) : b.toNat < 128 := by
  rw [isBreakByte, Bool.or_eq_true, decide_eq_true_eq, decide_eq_true_eq] at h
  obtain rfl | rfl := h
  · decide
  · decide

theorem isLineBreak_of_isBreakByte {b : UInt8} (h : isBreakByte b = true) :
    isLineBreak (Char.ofNat b.toNat) = true := by
  rw [isBreakByte, Bool.or_eq_true, decide_eq_true_eq, decide_eq_true_eq] at h
  obtain rfl | rfl := h
  · decide
  · decide

theorem isLineBreak_decode {line : List UInt8} (h : ∀ b ∈ line, isBreakByte b = false) :
    ∀ c ∈ Utf8.decode line, isLineBreak c = false := by
  intro c hc
  rw [Bool.eq_false_iff]
  intro hbreak
  -- a line end is found in the text where its byte is
  have hfound {b : UInt8} (hb : b.toNat < 128) (hsame : c = Char.ofNat b.toNat) : b ∈ line := by
    have htext : Utf8.asciiText [b] <:+: Utf8.decode line := by
      obtain ⟨before, after, heq⟩ := List.append_of_mem hc
      exact ⟨before, after, by rw [heq, hsame]; simp [Utf8.asciiText]⟩
    rw [Utf8.asciiText_infix_decode_iff (by simpa using hb) (by simp)] at htext
    exact htext.subset List.mem_cons_self
  rw [isLineBreak, Bool.or_eq_true, decide_eq_true_eq, decide_eq_true_eq] at hbreak
  obtain hreturn | hfeed := hbreak
  · exact absurd (h 13 (hfound (by decide) hreturn)) (by decide)
  · exact absurd (h 10 (hfound (by decide) hfeed)) (by decide)

theorem linesOf_decode_of_not_break {line : List UInt8} (h : ∀ b ∈ line, isBreakByte b = false) :
    linesOf isLineBreak (Utf8.decode line) = (linesOf isBreakByte line).map Utf8.decode := by
  by_cases hnil : line = []
  · rw [hnil]
    exact linesOf_nil
  · rw [linesOf_of_forall_not h hnil, linesOf_of_forall_not (isLineBreak_decode h)
      (mt Utf8.decode_eq_nil_iff.mp hnil)]
    rfl

/-- Bytes are decoded line by line. -/
theorem linesOf_decode (line bytes : List UInt8) (h : ∀ b ∈ line, isBreakByte b = false) :
    linesOf isLineBreak (Utf8.decode (line ++ bytes)) =
      (linesOf isBreakByte (line ++ bytes)).map Utf8.decode := by
  induction bytes generalizing line with
  | nil =>
      rw [List.append_nil]
      exact linesOf_decode_of_not_break h
  | cons b bytes ih =>
      by_cases hb : isBreakByte b = true
      · have hrest := ih [] (by simp)
        rw [Utf8.decode_append_cons (toNat_of_isBreakByte hb),
          linesOf_append_cons (isLineBreak_of_isBreakByte hb), linesOf_append_cons hb,
          List.map_append, linesOf_decode_of_not_break h]
        exact congrArg _ hrest
      · have hline : ∀ a ∈ line ++ [b], isBreakByte a = false := by
          rw [List.forall_mem_append]
          exact ⟨h, by simpa using hb⟩
        have hrest := ih (line ++ [b]) hline
        rwa [List.append_assoc, List.singleton_append] at hrest

theorem containsJob_decode_iff (bytes : List UInt8) :
    containsJob (Utf8.decode bytes) = true ↔ [106, 111, 98] <:+: bytes := by
  have hword : ['j', 'o', 'b'] = Utf8.asciiText [106, 111, 98] := by decide
  rw [containsJob, decide_eq_true_eq, hword]
  exact Utf8.asciiText_infix_decode_iff (by simp) (by simp)

theorem containsJob_of_start {fragment line : List UInt8} (hstart : fragment <+: line)
    (h : containsJob (Utf8.decode fragment) = true) : containsJob (Utf8.decode line) = true := by
  rw [containsJob_decode_iff] at h ⊢
  exact h.trans hstart.isInfix

/-- The beginning of an object has another text. -/
theorem decode_ne_text {message : Message} {fragment : List UInt8}
    (hstart : fragment <+: message.line) (hne : fragment ≠ message.line) :
    Utf8.decode fragment ≠ message.text := by
  have hline : message.line = message.line.dropLast ++ [0x7D] := by
    obtain ⟨last, hlast⟩ := List.getLast?_eq_some_iff.mp message.getLast_line
    rw [hlast, List.dropLast_concat]
  rw [hline, List.prefix_concat_iff] at hstart
  obtain rfl | hstart := hstart
  · exact absurd hline.symm hne
  · rw [Message.text, hline]
    exact Utf8.decode_ne_of_isPrefix (by decide) hstart

end lines

section runs

variable (deserialize : List Char → Option (Option BeamLoginResponse))

/-- The lines that are published of those that come. -/
def publishedOf : List (List Char) → List (List Char)
  | [] => []
  | line :: lines =>
      if containsJob line then line :: publishedOf lines
      else if (deserialize line).isSome then publishedOf lines
      else []

variable {deserialize}

theorem published_foldl (lines : List (List Char)) (stream : Stream) :
    (lines.foldl (Stream.digestLine deserialize) stream).published =
      stream.published ++ if stream.isOpen then publishedOf deserialize lines else [] := by
  induction lines generalizing stream with
  | nil => simp [publishedOf]
  | cons line lines ih =>
      rw [List.foldl_cons, ih, Stream.digestLine, publishedOf]
      by_cases hopen : stream.isOpen = true
      · rw [if_pos hopen, if_pos hopen]
        by_cases hjob : containsJob line = true
        · rw [if_pos hjob, if_pos hjob, if_pos hopen, List.append_assoc]
          rfl
        · rw [if_neg hjob, if_neg hjob]
          cases deserialize line with
          | none => simp
          | some response =>
              dsimp only
              rw [if_pos hopen]
              rfl
      · rw [if_neg hopen, if_neg hopen, if_neg hopen]

/-- The lines of every read by itself. -/
theorem published_readAll (chunks : List (List UInt8)) :
    (readAll deserialize chunks).published =
      publishedOf deserialize ((chunkLines isBreakByte chunks).map Utf8.decode) := by
  have hlines : (chunks.flatMap fun chunk =>
      (splitLines (Utf8.decode chunk)).filter fun line => !line.isEmpty) =
        (chunkLines isBreakByte chunks).map Utf8.decode := by
    rw [chunkLines, List.map_flatMap]
    refine congrArg (chunks.flatMap ·) (funext fun chunk => ?_)
    rw [filter_splitLines]
    exact linesOf_decode [] chunk (by simp)
  have hfold : (((chunkLines isBreakByte chunks).map Utf8.decode).foldl
      (Stream.digestLine deserialize) {}).published = _ := published_foldl _ _
  rw [← hlines, List.foldl_flatMap, hlines] at hfold
  exact hfold

theorem readsWhole_dropElements {count position : ℕ} {chunks : List (List UInt8)}
    {messages : List Message} :
    ReadsWhole deserialize (dropElements count chunks) position messages ↔
      ReadsWhole deserialize chunks (count + position) messages := by
  induction messages generalizing position with
  | nil => exact Iff.rfl
  | cons message messages ih =>
      rw [ReadsWhole, ReadsWhole, isCut_dropElements, ih, Nat.add_assoc]

/-- Without a job to come there is nothing to lose. -/
theorem readsWhole_of_not_any {position : ℕ} {chunks : List (List UInt8)} {messages : List Message}
    (h : messages.any Message.isJob = false) : ReadsWhole deserialize chunks position messages := by
  induction messages generalizing position with
  | nil => exact trivial
  | cons message messages ih =>
      refine ⟨fun hjob => ?_, ih ?_⟩
      · rw [h] at hjob
        cases hjob
      · rw [List.any_cons, Bool.or_eq_false_iff] at h
        exact h.2

theorem filter_isJob_eq_nil_iff {messages : List Message} :
    (messages.filter Message.isJob).map Message.text = [] ↔
      messages.any Message.isJob = false := by
  rw [List.map_eq_nil_iff, List.filter_eq_nil_iff, List.any_eq_false]

/-- A start of a message that is not all of it cannot be read. -/
def ThrowsOnFragments (deserialize : List Char → Option (Option BeamLoginResponse))
    (message : Message) : Prop :=
  ∀ fragment, fragment <+: message.line → fragment ≠ [] → fragment ≠ message.line →
    deserialize (Utf8.decode fragment) = none

/-- The texts of the jobs of messages. -/
theorem jobTexts_of_isJob {message : Message} (messages : List Message)
    (hjob : message.isJob = true) :
    ((message :: messages).filter Message.isJob).map Message.text =
      message.text :: (messages.filter Message.isJob).map Message.text := by
  rw [List.filter_cons_of_pos hjob, List.map_cons]

theorem jobTexts_of_not_isJob {message : Message} (messages : List Message)
    (hjob : ¬ message.isJob = true) :
    ((message :: messages).filter Message.isJob).map Message.text =
      (messages.filter Message.isJob).map Message.text := by
  rw [List.filter_cons_of_neg hjob]

/-- A message that is a line of its read is published when it is a job, and what is behind it when
it can be read. -/
theorem publishedOf_line_eq_iff {message : Message} {messages : List Message}
    {lines : List (List Char)} {whole : Prop}
    (hiff : publishedOf deserialize lines = (messages.filter Message.isJob).map Message.text ↔
      whole)
    (hwhole : messages.any Message.isJob = false → whole) :
    publishedOf deserialize (message.text :: lines) =
        ((message :: messages).filter Message.isJob).map Message.text ↔
      ((message :: messages).any Message.isJob = true → message.isJob = false →
        (deserialize message.text).isSome) ∧ whole := by
  rw [List.any_cons]
  change (if message.isJob then message.text :: _ else
    if (deserialize message.text).isSome then _ else _) = _ ↔ _
  by_cases hjob : message.isJob = true
  · rw [if_pos hjob, jobTexts_of_isJob messages hjob, List.cons.injEq, and_iff_right rfl, hiff]
    refine (and_iff_right fun _ hnot => ?_).symm
    rw [hjob] at hnot
    cases hnot
  · rw [if_neg hjob, jobTexts_of_not_isJob messages hjob]
    by_cases hsome : (deserialize message.text).isSome
    · rw [if_pos hsome, hiff]
      exact (and_iff_right fun _ _ => hsome).symm
    · rw [if_neg hsome, eq_comm, filter_isJob_eq_nil_iff]
      rw [Bool.not_eq_true] at hjob
      rw [hjob, Bool.false_or]
      constructor
      · intro hnone
        refine ⟨fun hmore => ?_, hwhole hnone⟩
        rw [hnone] at hmore
        cases hmore
      · rintro ⟨hread, -⟩
        rw [Bool.eq_false_iff]
        intro hmore
        exact hsome (hread hmore rfl)

/-- The beginning of a message that a read cuts is published in the place of no job. -/
theorem publishedOf_fragment_eq_iff {message : Message} {messages : List Message}
    {fragment : List UInt8} {lines : List (List Char)} (hstart : fragment <+: message.line)
    (hshort : fragment ≠ message.line) (hthrow : deserialize (Utf8.decode fragment) = none) :
    publishedOf deserialize (Utf8.decode fragment :: lines) =
        ((message :: messages).filter Message.isJob).map Message.text ↔
      (message :: messages).any Message.isJob = false := by
  rw [publishedOf, hthrow]
  by_cases hjob : containsJob (Utf8.decode fragment) = true
  · have hmessage : message.isJob = true := containsJob_of_start hstart hjob
    rw [if_pos hjob, jobTexts_of_isJob messages hmessage, List.cons.injEq, List.any_cons, hmessage]
    refine iff_of_false (fun heq => ?_) (by simp)
    exact decode_ne_text hstart hshort heq.1
  · rw [if_neg hjob, ← filter_isJob_eq_nil_iff]
    exact eq_comm

theorem publishedOf_eq_iff {messages : List Message}
    (hthrows : ∀ message ∈ messages, ThrowsOnFragments deserialize message)
    {chunks : List (List UInt8)} (hstream : chunks.flatten = streamOf messages) :
    publishedOf deserialize ((chunkLines isBreakByte chunks).map Utf8.decode) =
        (messages.filter Message.isJob).map Message.text ↔
      ReadsWhole deserialize chunks 0 messages := by
  induction messages generalizing chunks with
  | nil =>
      have hempty : chunkLines isBreakByte chunks = [] := by
        rw [chunkLines, List.flatMap_eq_nil_iff]
        intro chunk hchunk
        rw [List.flatten_eq_nil_iff.mp hstream chunk hchunk]
        exact linesOf_nil
      rw [hempty]
      exact iff_of_true rfl trivial
  | cons message messages ih =>
      rw [List.forall_mem_cons] at hthrows
      rw [streamOf, List.flatMap_cons, Message.bytes, List.append_assoc] at hstream
      have hhead : ∀ b ∈ (message.lineEnd ++ messages.flatMap Message.bytes).head?,
          isBreakByte b = true := by
        intro b hb
        rw [List.head?_append_of_ne_nil _ message.lineEnd_ne_nil] at hb
        exact message.isBreakByte_lineEnd b (List.mem_of_head? hb)
      obtain ⟨hwhole, hlines⟩ | ⟨hcut, fragment, others, hlines, hstart, hne, hshort⟩ :=
        chunkLines_line message.isBreakByte_line message.line_ne_nil hhead hstream
      · -- the message is a line of its read
        have hbehind := flatten_dropElements message.line.length chunks
        rw [hstream, List.drop_left] at hbehind
        have hrest := flatten_dropElements message.lineEnd.length
          (dropElements message.line.length chunks)
        rw [hbehind, List.drop_left] at hrest
        have hih := ih hthrows.2 hrest
        rw [← chunkLines_separators message.isBreakByte_lineEnd hbehind, readsWhole_dropElements,
          readsWhole_dropElements, Nat.add_zero] at hih
        rw [hlines, List.map_cons, ReadsWhole, Nat.zero_add, Message.bytes, List.length_append,
          and_iff_right hwhole]
        exact publishedOf_line_eq_iff hih readsWhole_of_not_any
      · -- a read ends in the message, and its beginning is all that is seen
        rw [hlines, List.map_cons,
          publishedOf_fragment_eq_iff hstart hshort (hthrows.1 fragment hstart hne hshort)]
        constructor
        · exact readsWhole_of_not_any
        · intro hread
          rw [Bool.eq_false_iff]
          intro hmore
          exact (hread.1 hmore).1 hcut

/-- The jobs that are published are those of the messages just if no read ends in a message that a
job comes with or behind, and the others in front of a job can be read. -/
theorem published_eq_iff_readsWhole {messages : List Message} {bufferSize : ℕ}
    (hthrows : ∀ message ∈ messages, ThrowsOnFragments deserialize message)
    (reads : Reads (streamOf messages) bufferSize) :
    (readAll deserialize reads.chunks).published =
        (messages.filter Message.isJob).map Message.text ↔
      ReadsWhole deserialize reads.chunks 0 messages := by
  rw [published_readAll]
  exact publishedOf_eq_iff hthrows reads.flatten_eq

/-- The size of the receive buffer. -/
def receiveBufferSize : ℕ := 1024

/-- A job that does not fit into the buffer is lost in every partition. -/
theorem not_readsWhole_of_lt {messages : List Message} {message : Message}
    {chunks : List (List UInt8)} {position : ℕ}
    (hchunks : ∀ chunk ∈ chunks, chunk.length ≤ receiveBufferSize) (hmem : message ∈ messages)
    (hjob : message.isJob = true) (hlong : receiveBufferSize < message.line.length)
    (hin : position + (streamOf messages).length ≤ chunks.flatten.length) :
    ¬ ReadsWhole deserialize chunks position messages := by
  induction messages generalizing position with
  | nil => cases hmem
  | cons other messages ih =>
      rw [streamOf, List.flatMap_cons, List.length_append] at hin
      rintro ⟨hother, hrest⟩
      obtain rfl | hmem := List.mem_cons.mp hmem
      · refine (hother ?_).1 (isCut_of_lt hchunks hlong ?_)
        · rw [List.any_cons, hjob, Bool.true_or]
        · rw [Message.bytes, List.length_append] at hin
          omega
      · refine ih hmem ?_ hrest
        rw [Nat.add_assoc]
        exact hin

end runs

end Miningcore.Beam
