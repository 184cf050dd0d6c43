import Mathlib.Data.List.Induction
import Miningcore.Stratum.StratumConnection

/-!
# Framing and chunks

A stream should do to a connection the same however it is cut: its lines are
handled in order up to the first that is too long, its newline included. The
receive loop measures what a read finds instead of a line.
-/

namespace Miningcore.StratumConnection

open Foundation

variable {ε : Type*} (config : Configuration ε)

namespace Session

/-- A line after an exception is not handled. -/
def handleLine (session : Session ε) (line : List UInt8) : Session ε :=
  if session.error.isSome then session else session.processLine config line

def exceed (session : Session ε) : Session ε :=
  { session with error := some (exceedsMaximum config.maxInboundRequestLength) }

/-- What a line of a stream should do. -/
def frameLine (session : Session ε) (line : List UInt8) : Session ε :=
  if session.error.isNone && config.maxInboundRequestLength < line.length + 1 then
    session.exceed config
  else session.handleLine config line

/-- What a stream should do. -/
def frame (session : Session ε) (stream : List UInt8) : Session ε :=
  let framed := (completeLines newline stream).foldl (frameLine config) session
  if framed.error.isNone && config.maxInboundRequestLength < (lastLine newline stream).length then
    framed.exceed config
  else framed

section lines

variable {session : Session ε}

theorem handleLine_of_error (h : session.error.isSome) (lines : List (List UInt8)) :
    lines.foldl (handleLine config) session = session := by
  induction lines with
  | nil => rfl
  | cons line lines ih => rw [List.foldl_cons, handleLine, if_pos h, ih]

theorem frameLine_of_error (h : session.error.isSome) (lines : List (List UInt8)) :
    lines.foldl (frameLine config) session = session := by
  have hnone : session.error.isNone = false := by simpa using h
  induction lines with
  | nil => rfl
  | cons line lines ih =>
      rw [List.foldl_cons, frameLine, hnone, Bool.false_and, if_neg (by decide), handleLine,
        if_pos h, ih]

/-- The loop over the lines of a buffer handles them in order. -/
theorem processLines_eq_foldl (h : session.error = none) (buffer : List UInt8) :
    (session.processLines config buffer).1 =
        (completeLines newline buffer).foldl (handleLine config) session ∧
      ((session.processLines config buffer).1.error = none →
        (session.processLines config buffer).2 = lastLine newline buffer) := by
  induction buffer using lines_induction newline generalizing session with
  | last line hline =>
      rw [processLines, completeLines_of_notMem hline, lastLine_of_notMem hline]
      split
      · exact ⟨rfl, fun _ => rfl⟩
      · rename_i hsome
        rw [takeLine_of_notMem hline] at hsome
        cases hsome
  | ended line rest hline ih =>
      rw [processLines, completeLines_append_cons hline, lastLine_append_cons hline,
        List.foldl_cons, handleLine, h, Option.isSome_none, if_neg (by decide)]
      split
      · rename_i hnone
        rw [takeLine_append_cons hline] at hnone
        cases hnone
      · rename_i hsome
        rw [takeLine_append_cons hline] at hsome
        cases hsome
        dsimp only
        cases herror : (session.processLine config line).error with
        | none => exact ih herror
        | some exception =>
            refine ⟨(handleLine_of_error config (by rw [herror]; rfl) _).symm, fun hnone => ?_⟩
            rw [herror] at hnone
            cases hnone

/-- Short lines are handled. -/
theorem foldl_frameLine (session : Session ε) (lines : List (List UInt8))
    (h : ∀ line ∈ lines, line.length + 1 ≤ config.maxInboundRequestLength) :
    lines.foldl (frameLine config) session = lines.foldl (handleLine config) session := by
  induction lines generalizing session with
  | nil => rfl
  | cons line lines ih =>
      have hline : ¬ config.maxInboundRequestLength < line.length + 1 := by
        have := h line List.mem_cons_self
        omega
      rw [List.foldl_cons, List.foldl_cons, frameLine, decide_eq_false hline, Bool.and_false,
        if_neg (by decide), ih _ fun other hother => h other (List.mem_cons_of_mem line hother)]

/-- A buffer within the limit is handled line by line. -/
theorem frame_of_length_le {stream : List UInt8}
    (h : stream.length ≤ config.maxInboundRequestLength) :
    session.frame config stream =
      (completeLines newline stream).foldl (handleLine config) session := by
  have hlast : ¬ config.maxInboundRequestLength < (lastLine newline stream).length := by
    have := length_lastLine_le newline stream
    omega
  have hlines := foldl_frameLine config session
    (completeLines newline stream) fun line hline => by
      have := length_lt_of_mem_completeLines newline stream hline
      omega
  simp only [frame, hlines, decide_eq_false hlast, Bool.and_false, Bool.false_eq_true, if_false]

/-- A stream whose first line is too long. -/
theorem frame_of_newline_notMem_take (herror : session.error = none) (stream : List UInt8)
    (hlength : config.maxInboundRequestLength < stream.length)
    (hline : newline ∉ stream.take config.maxInboundRequestLength) :
    session.frame config stream = session.exceed config := by
  by_cases h : newline ∈ stream
  · obtain ⟨line, rest, rfl, hfirst⟩ := List.eq_append_cons_of_mem h
    have hlong : config.maxInboundRequestLength < line.length + 1 := by
      by_contra hshort
      apply hline
      rw [List.mem_take_iff_getElem]
      refine ⟨line.length, ?_, ?_⟩
      · rw [List.length_append, List.length_cons]
        omega
      · simp
    have hexceed : frameLine config session line = session.exceed config := by
      rw [frameLine, herror, decide_eq_true hlong]
      rfl
    have hframed : (completeLines newline (line ++ newline :: rest)).foldl
        (frameLine config) session = session.exceed config := by
      rw [completeLines_append_cons hfirst, List.foldl_cons, hexceed]
      exact frameLine_of_error config rfl _
    simp only [frame, hframed, exceed, Option.isNone_some, Bool.false_and, Bool.false_eq_true,
      if_false]
  · simp only [frame, completeLines_of_notMem h, lastLine_of_notMem h, List.foldl_nil, herror,
      Option.isNone_none, Bool.true_and, decide_eq_true hlength, if_true]

/-- A stream that went wrong stays so. -/
theorem frame_append_of_error (stream : List UInt8)
    (h : (session.frame config stream).error.isSome) (more : List UInt8) :
    session.frame config (stream ++ more) = session.frame config stream := by
  cases hframed : ((completeLines newline stream).foldl (frameLine config) session).error with
  | some exception =>
      have hsome : ((completeLines newline stream).foldl (frameLine config) session).error.isSome :=
        by rw [hframed]; rfl
      have hkept : ∀ tail, (completeLines newline tail).foldl (frameLine config)
          ((completeLines newline stream).foldl (frameLine config) session) =
          (completeLines newline stream).foldl (frameLine config) session :=
        fun tail => frameLine_of_error config hsome _
      simp only [frame, completeLines_append newline stream more, List.foldl_append, hkept, hframed,
        Option.isNone_some, Bool.false_and]
  | none =>
      have hlong : config.maxInboundRequestLength < (lastLine newline stream).length := by
        by_contra hshort
        simp only [frame, hframed, decide_eq_false hshort, Bool.and_false, Bool.false_eq_true,
          if_false, Option.isSome_none] at h
      have hstream : session.frame config stream =
          ((completeLines newline stream).foldl (frameLine config) session).exceed config := by
        simp only [frame, hframed, Option.isNone_none, decide_eq_true hlong, Bool.and_self, if_true]
      have hrest := frame_of_newline_notMem_take config hframed
        (lastLine newline stream ++ more)
        (by rw [List.length_append]; omega)
        (by
          rw [List.take_append_of_le_length (by omega)]
          exact fun hmem => notMem_lastLine newline stream (List.mem_of_mem_take hmem))
      rw [hstream, ← hrest]
      simp only [frame, completeLines_append newline stream more, List.foldl_append,
        lastLine_append newline stream more]

/-- A stream that did not go wrong goes on from its last line. -/
theorem frame_append {stream : List UInt8} (h : (session.frame config stream).error = none)
    (more : List UInt8) :
    session.frame config (stream ++ more) =
      (session.frame config stream).frame config (lastLine newline stream ++ more) := by
  have hframed : session.frame config stream =
      (completeLines newline stream).foldl (frameLine config) session := by
    rw [frame]
    split
    · rename_i hexceeds
      rw [frame, if_pos hexceeds] at h
      cases h
    · rfl
  rw [hframed]
  simp only [frame, completeLines_append newline stream more, List.foldl_append,
    lastLine_append newline stream more]

theorem bytes_processLine (session : Session ε) (line : List UInt8) :
    (session.processLine config line).lines.map HandledLine.bytes =
      session.lines.map HandledLine.bytes ++ [line] := by
  simp only [processLine, processRequest]
  split
  · split <;> simp [HandledLine.bytes]
  · simp [HandledLine.bytes]

theorem length_lines_processLine (session : Session ε) (line : List UInt8) :
    (session.processLine config line).lines.length = session.lines.length + 1 := by
  have hbytes := congrArg List.length (bytes_processLine config session line)
  simpa using hbytes

theorem length_lines_le_frameLine (session : Session ε) (line : List UInt8) :
    session.lines.length ≤ (session.frameLine config line).lines.length := by
  simp only [frameLine, handleLine]
  split
  · exact Nat.le_refl _
  · split
    · exact Nat.le_refl _
    · rw [length_lines_processLine config]
      omega

theorem length_lines_le_foldl (lines : List (List UInt8)) (session : Session ε) :
    session.lines.length ≤ (lines.foldl (frameLine config) session).lines.length := by
  induction lines generalizing session with
  | nil => exact Nat.le_refl _
  | cons line lines ih => exact Nat.le_trans (length_lines_le_frameLine config session line) (ih _)

/-- A first line that is not too long is handled. -/
theorem length_lines_lt_frame (herror : session.error = none) (stream : List UInt8)
    (h : newline ∈ stream.take config.maxInboundRequestLength) :
    session.lines.length < (session.frame config stream).lines.length := by
  obtain ⟨line, rest, hstream, hfirst⟩ :=
    List.eq_append_cons_of_mem (List.mem_of_mem_take h)
  have hshort : ¬ config.maxInboundRequestLength < line.length + 1 := by
    intro hlong
    rw [hstream, List.take_append_of_le_length (by omega)] at h
    exact hfirst (List.mem_of_mem_take h)
  have hhandled : frameLine config session line = session.processLine config line := by
    rw [frameLine, herror, decide_eq_false hshort, Bool.and_false, if_neg (by decide), handleLine,
      herror]
    rfl
  have hfold := length_lines_le_foldl config (completeLines newline rest)
    (session.processLine config line)
  rw [length_lines_processLine config] at hfold
  have hframe : (session.frame config stream).lines =
      ((completeLines newline rest).foldl (frameLine config)
        (session.processLine config line)).lines := by
    rw [hstream, frame, completeLines_append_cons hfirst, List.foldl_cons, hhandled]
    split <;> rfl
  rw [hframe]
  omega

end lines

end Session

namespace Connection

def start (expectingProxyHeader : Bool) (remoteEndpoint : IPEndPoint) : Connection ε where
  session := { expectingProxyHeader, remoteEndpoint, lines := [], error := none }

/-- The bytes of the stream that the socket has given. -/
def received (events : List Event) : List UInt8 :=
  events.flatMap fun
    | .receive chunk => chunk
    | .read => []

/-- Nothing is left to read. -/
def Drained (connection : Connection ε) : Prop :=
  connection.session.error.isSome ∨ connection.buffer.length = connection.examined

/-- A read that the bound on the received data does not cut off within a line. -/
def ReadsWithinLine (connection : Connection ε) : Prop :=
  connection.buffer.length ≤ config.maxInboundRequestLength ∨
    newline ∉ connection.buffer.take config.maxInboundRequestLength

/-- No read finds several lines and more bytes than a line may have. -/
def AllReadWithinLine (connection : Connection ε) (events : List Event) : Prop :=
  ∀ before after, events = before ++ .read :: after →
    (connection.run config before).session.error = none →
      (connection.run config before).ReadsWithinLine config

/-- The stream does what it should, in whatever chunks it came. -/
def FramesLines (connection : Connection ε) (events : List Event) : Prop :=
  (connection.run config events).Drained →
    (connection.run config events).session.lines =
        (connection.session.frame config (received events)).lines ∧
      (connection.run config events).session.error =
        (connection.session.frame config (received events)).error

/-- The pipe holds the last line of what was read and what came after. -/
structure Pipe (session : Session ε) (stream : List UInt8) (connection : Connection ε) : Prop where
  framed : connection.session.error.isSome → connection.session = session.frame config stream
  reading : connection.session.error = none → ∃ seen pending, stream = seen ++ pending ∧
    connection.buffer = lastLine newline seen ++ pending ∧
    connection.examined = (lastLine newline seen).length ∧
    connection.session = session.frame config seen

variable {config} {session : Session ε} {stream : List UInt8} {connection : Connection ε}

theorem Pipe.receive (h : Pipe config session stream connection) (chunk : List UInt8) :
    Pipe config session (stream ++ chunk) (connection.step config (.receive chunk)) where
  framed herror := by
    have hframed := h.framed herror
    have hkept := Session.frame_append_of_error config
      stream (by rw [← hframed]; exact herror) chunk
    rw [hkept]
    exact hframed
  reading hnone := by
    obtain ⟨seen, pending, hstream, hbuffer, hexamined, hsession⟩ := h.reading hnone
    refine ⟨seen, pending ++ chunk, ?_, ?_, hexamined, hsession⟩
    · rw [hstream, List.append_assoc]
    · rw [step, hbuffer, List.append_assoc]

/-- A read changes nothing, finds too much without a newline, or handles the lines. -/
theorem step_read_cases (connection : Connection ε) :
    connection.step config .read = connection ∨
      connection.session.error = none ∧
        (config.maxInboundRequestLength < connection.buffer.length ∧
            connection.step config .read =
              { connection with session := connection.session.exceed config } ∨
          connection.buffer.length ≤ config.maxInboundRequestLength ∧
            connection.step config .read =
              { session := (connection.session.processLines config connection.buffer).1
                buffer := (connection.session.processLines config connection.buffer).2
                examined :=
                  (connection.session.processLines config connection.buffer).2.length }) := by
  rw [step, processReceivePipe]
  split
  · exact Or.inl rfl
  · rename_i hgoes
    rw [Bool.or_eq_true, not_or] at hgoes
    have herror : connection.session.error = none := by
      simpa using hgoes.1
    right
    refine ⟨herror, ?_⟩
    split
    · rename_i hlong
      exact Or.inl ⟨hlong, rfl⟩
    · rename_i hshort
      exact Or.inr ⟨Nat.le_of_not_lt hshort, rfl⟩

theorem Pipe.read (h : Pipe config session stream connection)
    (hwithin : connection.session.error = none → connection.ReadsWithinLine config) :
    Pipe config session stream (connection.step config .read) := by
  obtain hstep | ⟨herror, hread⟩ := @step_read_cases _ config connection
  · rw [hstep]
    exact h
  · obtain ⟨seen, pending, hstream, hbuffer, hexamined, hsession⟩ := h.reading herror
    have hframe : session.frame config stream =
        connection.session.frame config connection.buffer := by
      rw [hstream, hbuffer, hsession]
      exact Session.frame_append config (by rw [← hsession]; exact herror) pending
    obtain ⟨hlong, hstep⟩ | ⟨hshort, hstep⟩ := hread
    · have hexceed := Session.frame_of_newline_notMem_take config herror _ hlong
        ((hwithin herror).resolve_left (by omega))
      rw [hstep]
      refine ⟨fun _ => ?_, fun hnone => ?_⟩
      · rw [hframe, hexceed]
      · cases hnone
    · obtain ⟨hlines, hrest⟩ := Session.processLines_eq_foldl config herror
        connection.buffer
      rw [← Session.frame_of_length_le config hshort, ← hframe] at hlines
      rw [hstep]
      refine ⟨fun _ => hlines, fun hnone => ?_⟩
      have hleft : (connection.session.processLines config connection.buffer).2 =
          lastLine newline stream := by
        rw [hrest hnone, hstream, hbuffer, ← lastLine_append]
      refine ⟨stream, [], by rw [List.append_nil], ?_, congrArg List.length hleft, hlines⟩
      rw [List.append_nil]
      exact hleft

variable {expectingProxyHeader : Bool} {remoteEndpoint : IPEndPoint}

theorem pipe_start :
    Pipe config (start (ε := ε) expectingProxyHeader remoteEndpoint).session []
      (start expectingProxyHeader remoteEndpoint) where
  framed herror := by cases herror
  reading _ := by
    refine ⟨[], [], rfl, ?_, ?_, ?_⟩
    · simp [start]
    · simp [start]
    · simp [Session.frame, start]

theorem AllReadWithinLine.of_append {events : List Event} {event : Event}
    (h : AllReadWithinLine config connection (events ++ [event])) :
    AllReadWithinLine config connection events :=
  fun before after hevents =>
    h before (after ++ [event]) (by rw [hevents, List.append_assoc, List.cons_append])

theorem run_concat (connection : Connection ε) (events : List Event) (event : Event) :
    connection.run config (events ++ [event]) =
      (connection.run config events).step config event := by
  rw [run, List.foldl_append, List.foldl_cons, List.foldl_nil, run]

/-- The pipe along a run. -/
theorem pipe_run (events : List Event)
    (h : AllReadWithinLine config (start expectingProxyHeader remoteEndpoint) events) :
    Pipe config (start (ε := ε) expectingProxyHeader remoteEndpoint).session (received events)
      ((start expectingProxyHeader remoteEndpoint).run config events) := by
  induction events using List.reverseRecOn with
  | nil => exact pipe_start
  | append_singleton events event ih =>
      have hbefore := ih h.of_append
      rw [run_concat, received, List.flatMap_append, List.flatMap_singleton]
      cases event with
      | receive chunk => exact hbefore.receive chunk
      | read =>
          rw [List.append_nil]
          exact hbefore.read (h events [] rfl)

theorem session_step_of_error (h : connection.session.error.isSome) (event : Event) :
    (connection.step config event).session = connection.session := by
  cases event with
  | receive chunk => rfl
  | read => rw [step, processReceivePipe, h, Bool.true_or, if_pos rfl]

theorem session_run_of_error (h : connection.session.error.isSome) (events : List Event) :
    (connection.run config events).session = connection.session := by
  induction events using List.reverseRecOn with
  | nil => rfl
  | append_singleton events event ih =>
      rw [run_concat, session_step_of_error (by rw [ih]; exact h), ih]

theorem run_append (connection : Connection ε) (before after : List Event) :
    connection.run config (before ++ after) =
      (connection.run config before).run config after := by
  rw [run, List.foldl_append, run, run]

/-- A read across several lines is taken for one line that is too long. -/
theorem session_read_of_not_readsWithinLine (herror : connection.session.error = none)
    (hunread : connection.buffer.length ≠ connection.examined)
    (h : ¬ connection.ReadsWithinLine config) :
    (connection.step config .read).session = connection.session.exceed config := by
  rw [ReadsWithinLine, not_or] at h
  rw [step, processReceivePipe, herror, Option.isSome_none, Bool.false_or,
    beq_eq_false_iff_ne.mpr hunread, if_neg (by decide), if_pos (by omega)]
  rfl

theorem Pipe.buffer_ne_examined (h : Pipe config session stream connection)
    (herror : connection.session.error = none) (hlong : ¬ connection.ReadsWithinLine config) :
    connection.buffer.length ≠ connection.examined := by
  obtain ⟨seen, pending, hstream, hbuffer, hexamined, hsession⟩ := h.reading herror
  rw [ReadsWithinLine, not_or, not_not] at hlong
  intro hdrained
  rw [hbuffer, hexamined, List.length_append] at hdrained
  have hpending : pending = [] := by
    rw [← List.length_eq_zero_iff]
    omega
  rw [hbuffer, hpending, List.append_nil] at hlong
  exact notMem_lastLine newline seen (List.mem_of_mem_take hlong.2)

/-- A connection that has no exception yet has only read within lines. -/
theorem allReadWithinLine_of_error_eq_none (events : List Event)
    (h : ((start (ε := ε) expectingProxyHeader remoteEndpoint).run config events).session.error =
      none) :
    AllReadWithinLine config (start (ε := ε) expectingProxyHeader remoteEndpoint) events := by
  induction events using List.reverseRecOn with
  | nil =>
      intro before after hevents
      simp at hevents
  | append_singleton events event ih =>
      have hnone : ((start (ε := ε) expectingProxyHeader remoteEndpoint).run config
          events).session.error = none := by
        by_contra hsome
        rw [run_concat, session_step_of_error (Option.isSome_iff_ne_none.mpr hsome)] at h
        exact hsome h
      have hwithin := ih hnone
      intro before after hevents herror
      obtain rfl | ⟨last, initial, rfl⟩ := after.eq_nil_or_concat'
      · obtain ⟨rfl, hevent⟩ := List.append_inj' hevents rfl
        obtain rfl : event = .read := by simpa using hevent
        by_contra hlong
        have hpipe := pipe_run events hwithin
        rw [run_concat, session_read_of_not_readsWithinLine herror
          (hpipe.buffer_ne_examined herror hlong) hlong] at h
        cases h
      · apply hwithin before last _ herror
        rw [← List.cons_append, ← List.append_assoc] at hevents
        exact (List.append_inj' hevents rfl).1

/-- A read across several lines loses the first of them. -/
theorem not_framesLines (before : List Event)
    (herror : ((start (ε := ε) expectingProxyHeader remoteEndpoint).run config
      before).session.error = none)
    (hlong : ¬ ((start (ε := ε) expectingProxyHeader remoteEndpoint).run config
      before).ReadsWithinLine config) (after : List Event) :
    ¬ FramesLines config (start (ε := ε) expectingProxyHeader remoteEndpoint)
      (before ++ .read :: after) := by
  intro hframes
  have hpipe := pipe_run before (allReadWithinLine_of_error_eq_none before herror)
  have hread := session_read_of_not_readsWithinLine herror
    (hpipe.buffer_ne_examined herror hlong) hlong
  obtain ⟨seen, pending, hstream, hbuffer, hexamined, hsession⟩ := hpipe.reading herror
  have hrun : ((start expectingProxyHeader remoteEndpoint).run config
      (before ++ .read :: after)).session =
      ((start expectingProxyHeader remoteEndpoint).run config before).session.exceed config := by
    rw [run_append, ← hread]
    exact session_run_of_error (by rw [hread]; rfl) after
  obtain ⟨hlines, -⟩ := hframes (Or.inl (by rw [hrun]; rfl))
  have hreceived : received (before ++ .read :: after) =
      seen ++ (pending ++ received after) := by
    rw [received, List.flatMap_append, ← received, hstream, List.append_assoc]
    rfl
  have hframe := Session.frame_append config (by rw [← hsession]; exact herror)
    (pending ++ received after)
  rw [ReadsWithinLine, not_or, not_not] at hlong
  have hlonger := Session.length_lines_lt_frame config herror
    (lastLine newline seen ++ (pending ++ received after)) (by
      rw [← List.append_assoc, ← hbuffer, List.take_append_of_le_length (by omega)]
      exact hlong.2)
  rw [hsession, ← hframe, ← hreceived, ← hlines, hrun, ← hsession] at hlonger
  exact Nat.lt_irrefl _ hlonger

/-- A connection that only reads within lines does what the stream should. -/
theorem framesLines_of_allReadWithinLine {events : List Event}
    (hwithin : AllReadWithinLine config (start (ε := ε) expectingProxyHeader remoteEndpoint)
      events) :
    FramesLines config (start (ε := ε) expectingProxyHeader remoteEndpoint) events := by
  intro hdrained
  have hpipe := pipe_run events hwithin
  by_cases herror : ((start (ε := ε) expectingProxyHeader remoteEndpoint).run config
      events).session.error = none
  · obtain ⟨seen, pending, hstream, hbuffer, hexamined, hsession⟩ := hpipe.reading herror
    have hunread := hdrained.resolve_left (by rw [herror]; simp)
    rw [hbuffer, hexamined, List.length_append] at hunread
    have hpending : pending = [] := by
      rw [← List.length_eq_zero_iff]
      omega
    rw [hstream, hpending, List.append_nil, ← hsession]
    exact ⟨rfl, rfl⟩
  · rw [← hpipe.framed (Option.isSome_iff_ne_none.mpr herror)]
    exact ⟨rfl, rfl⟩

/-- Two ways to cut a stream that both keep the reads within lines do the same. -/
theorem lines_eq_of_received_eq {events others : List Event}
    (hevents : AllReadWithinLine config (start (ε := ε) expectingProxyHeader remoteEndpoint) events)
    (hothers : AllReadWithinLine config (start (ε := ε) expectingProxyHeader remoteEndpoint) others)
    (hdrained : ((start (ε := ε) expectingProxyHeader remoteEndpoint).run config events).Drained)
    (hdrained' : ((start (ε := ε) expectingProxyHeader remoteEndpoint).run config others).Drained)
    (hreceived : received events = received others) :
    ((start (ε := ε) expectingProxyHeader remoteEndpoint).run config events).session.lines =
        ((start expectingProxyHeader remoteEndpoint).run config others).session.lines ∧
      ((start (ε := ε) expectingProxyHeader remoteEndpoint).run config events).session.error =
        ((start expectingProxyHeader remoteEndpoint).run config others).session.error := by
  obtain ⟨hlines, herror⟩ := framesLines_of_allReadWithinLine hevents hdrained
  obtain ⟨hlines', herror'⟩ := framesLines_of_allReadWithinLine hothers hdrained'
  rw [hlines, herror, hlines', herror', hreceived]
  exact ⟨rfl, rfl⟩

/-- The stream does what it should exactly when no read finds several lines and more bytes than a
line may have. -/
theorem framesLines_iff_allReadWithinLine (config : Configuration ε) (expectingProxyHeader : Bool)
    (remoteEndpoint : IPEndPoint) (events : List Event) :
    FramesLines config (start expectingProxyHeader remoteEndpoint) events ↔
      AllReadWithinLine config (start expectingProxyHeader remoteEndpoint) events := by
  refine ⟨fun hframes before after hevents herror => ?_, framesLines_of_allReadWithinLine⟩
  by_contra hlong
  rw [hevents] at hframes
  exact not_framesLines before herror hlong after hframes

/-- Chunks stay in the pipe until a read. -/
theorem buffer_run_receive (first second : List UInt8) :
    ((start (ε := ε) expectingProxyHeader remoteEndpoint).run config
      [.receive first, .receive second]).buffer = first ++ second := rfl

namespace Pipelining

/-- A connection with the default limit to a pool that answers every request. -/
def answering : Configuration Empty where
  maxInboundRequestLength := inboundLimit 0
  proxyProtocol := ⟨false, false, none⟩
  parseAddress _ := none
  parsePort _ := none
  onRequest _ _ := .ok ()

def request : List UInt8 :=
  "\x7b\"id\":1,\"method\":\"mining.noop\",\"params\":[]\x7d\n".toList.map (·.toNat.toUInt8)

/-- Five hundred requests. -/
def chunk : List UInt8 := (List.replicate 500 request).flatten

theorem length_chunk : chunk.length = 22000 := by
  have hrequest : request.length = 44 := by decide
  rw [chunk, List.length_flatten, List.map_replicate, List.sum_replicate_nat, hrequest]

theorem newline_mem_chunk : newline ∈ chunk := by
  rw [chunk, List.mem_flatten]
  exact ⟨request, List.mem_replicate.mpr ⟨by decide, rfl⟩, by decide⟩

end Pipelining

/-- A thousand short requests are taken for one that is too long. -/
theorem not_framesLines_pipelined :
    ¬ FramesLines Pipelining.answering (start false ⟨"10.0.0.1", 50000⟩)
      [.receive Pipelining.chunk, .receive Pipelining.chunk, .read] := by
  have hlimit : Pipelining.answering.maxInboundRequestLength = 32768 := rfl
  apply not_framesLines [.receive Pipelining.chunk, .receive Pipelining.chunk] rfl
  rw [ReadsWithinLine, buffer_run_receive, hlimit, not_or, not_not]
  constructor
  · rw [List.length_append, Pipelining.length_chunk]
    omega
  · rw [List.take_append, List.mem_append]
    left
    rw [List.take_of_length_le (by rw [Pipelining.length_chunk]; omega)]
    exact Pipelining.newline_mem_chunk

end Connection

end Miningcore.StratumConnection
