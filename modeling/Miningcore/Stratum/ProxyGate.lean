import Miningcore.Stratum.LineFraming

/-!
# The gate of the proxy protocol

Behind a load balancer the end point of a connection is the one its proxy header
names. Only the first line of a connection can be that header, and only a trusted
peer may send it. A connection that has to begin with the header is heard by the
request handler after it has.

## Implementation notes

What a connection did is read off the lines it handled: its session is the one
after a first part of the lines of its stream, whatever chunks they came in.
-/

namespace Miningcore.StratumConnection

open Foundation

variable {ε : Type*} (config : Configuration ε)

/-- The session of a connection from a peer. -/
def connect (peer : IPEndPoint) : Session ε :=
  (Connection.start config.proxyProtocol.enable peer).session

/-- The session after some lines. -/
def afterLines (peer : IPEndPoint) (lines : List (List UInt8)) : Session ε :=
  lines.foldl (Session.handleLine config) (connect config peer)

/-- The address is a configured one, or loopback when none is configured. -/
def IsTrusted (address : String) : Prop :=
  match config.proxyProtocol.proxyAddresses with
  | none | some [] => address ∈ loopbackAddresses
  | some texts => ∃ text ∈ texts, config.parseAddress text = some address

/-- The stream begins with the line of a proxy header. -/
def BeginsWithHeader (lines : List (List UInt8)) : Prop :=
  ∃ line ∈ lines.head?, proxyPrefix <+: line

/-- The end point changes at the first line only, and only for a header from a trusted peer. -/
def GuardsEndpoint (peer : IPEndPoint) (lines : List (List UInt8)) : Prop :=
  ∀ before line, before ++ [line] <+: lines →
    (afterLines config peer (before ++ [line])).remoteEndpoint ≠
        (afterLines config peer before).remoteEndpoint →
      before = [] ∧ proxyPrefix <+: line ∧ IsTrusted config peer.address

section trust

variable {config}

theorem mem_of_mapM_eq_some {α β : Type*} {f : α → Option β} {texts : List α} {values : List β}
    (h : texts.mapM f = some values) {value : β} (hvalue : value ∈ values) :
    ∃ text ∈ texts, f text = some value := by
  induction texts generalizing values with
  | nil =>
      obtain rfl : [] = values := by simpa using h
      simp at hvalue
  | cons text texts ih =>
      simp only [List.mapM_cons, Option.bind_eq_bind, Option.bind_eq_some_iff, Option.pure_def,
        Option.some.injEq] at h
      obtain ⟨first, hfirst, others, hothers, rfl⟩ := h
      obtain rfl | hrest := List.mem_cons.mp hvalue
      · exact ⟨text, List.mem_cons_self, hfirst⟩
      · obtain ⟨other, hother, hvalue⟩ := ih hothers hrest
        exact ⟨other, List.mem_cons_of_mem text hother, hvalue⟩

/-- The addresses a header may come from are trusted. -/
theorem isTrusted_of_mem {addresses : List String} {address : String}
    (h : trustedProxies config = some addresses) (hmem : address ∈ addresses) :
    IsTrusted config address := by
  rw [trustedProxies] at h
  rw [IsTrusted]
  match config.proxyProtocol.proxyAddresses, h with
  | none, h | some [], h =>
      obtain rfl : loopbackAddresses = addresses := by simpa using h
      exact hmem
  | some (text :: texts), h =>
      obtain ⟨values, hvalues, hlist⟩ := Option.map_eq_some_iff.mp h
      have hnonempty : values.isEmpty = false := by
        simp only [List.mapM_cons, Option.bind_eq_bind, Option.bind_eq_some_iff, Option.pure_def,
          Option.some.injEq] at hvalues
        obtain ⟨first, -, others, -, rfl⟩ := hvalues
        rfl
      rw [hnonempty, if_neg (by decide)] at hlist
      exact mem_of_mapM_eq_some hvalues (hlist ▸ hmem)

end trust

section header

variable {config} {remoteEndpoint : IPEndPoint} {line : List UInt8}

/-- An end point is only taken from a header, and only when the peer is trusted. -/
theorem processProxyHeader_eq_some {endpoint : IPEndPoint}
    (h : processProxyHeader config remoteEndpoint line = .ok (some endpoint)) :
    proxyPrefix <+: line ∧ IsTrusted config remoteEndpoint.address := by
  simp only [processProxyHeader] at h
  split at h
  · rename_i hheader
    split at h
    · cases h
    · rename_i addresses haddresses
      split at h
      · rename_i hmem
        exact ⟨List.isPrefixOf_iff_prefix.mp hheader, isTrusted_of_mem haddresses hmem⟩
      · cases h
  · split at h <;> cases h

/-- A line that is no header goes on as a request when the header is not mandatory. -/
theorem mandatory_of_processProxyHeader_eq_none
    (h : processProxyHeader config remoteEndpoint line = .ok none) :
    config.proxyProtocol.mandatory = false := by
  simp only [processProxyHeader] at h
  split at h
  · split at h
    · cases h
    · split at h
      · cases hheader : parseProxyHeader config line with
        | error exception => rw [hheader] at h; cases h
        | ok endpoint => rw [hheader] at h; cases h
      · cases h
  · split at h
    · cases h
    · rename_i hmandatory
      exact Bool.eq_false_iff.mpr hmandatory

end header

namespace Session

variable {config} {session : Session ε}

/-- After its first line a session expects no header. -/
theorem expectingProxyHeader_processLine (session : Session ε) (line : List UInt8) :
    (session.processLine config line).expectingProxyHeader = false := by
  rw [processLine]
  split
  · dsimp only
    split <;> rfl
  · rename_i hexpecting
    exact Bool.eq_false_iff.mpr hexpecting

/-- A session that expects no header keeps its end point. -/
theorem remoteEndpoint_handleLine (h : session.expectingProxyHeader = false) (line : List UInt8) :
    (session.handleLine config line).remoteEndpoint = session.remoteEndpoint := by
  rw [handleLine]
  split
  · rfl
  · rw [processLine, h, if_neg (by decide), processRequest]

/-- The end point only changes for a header from a trusted peer. -/
theorem isTrusted_of_remoteEndpoint_ne {line : List UInt8}
    (h : (session.processLine config line).remoteEndpoint ≠ session.remoteEndpoint) :
    proxyPrefix <+: line ∧ IsTrusted config session.remoteEndpoint.address := by
  rw [processLine] at h
  split at h
  · dsimp only at h
    split at h
    · exact absurd rfl h
    · rename_i endpoint hendpoint
      exact processProxyHeader_eq_some hendpoint
    · exact absurd rfl h
  · exact absurd rfl h

/-- A refused first line is no request, and no other line is handled after it. -/
theorem refuses {line : List UInt8} {exception : StratumException ε}
    (hexpecting : session.expectingProxyHeader = true)
    (h : processProxyHeader config session.remoteEndpoint line = .error exception) :
    (session.processLine config line).requests = session.requests ∧
      (session.processLine config line).error.isSome := by
  rw [processLine, if_pos hexpecting]
  dsimp only
  rw [h]
  constructor
  · rw [requests, requests, List.filterMap_append]
    exact List.append_nil _
  · rfl

end Session

section lines

variable {config} {peer : IPEndPoint}

theorem afterLines_concat (peer : IPEndPoint) (lines : List (List UInt8)) (line : List UInt8) :
    afterLines config peer (lines ++ [line]) =
      (afterLines config peer lines).handleLine config line := by
  rw [afterLines, List.foldl_append, List.foldl_cons, List.foldl_nil, afterLines]

theorem expectingProxyHeader_afterLines {lines : List (List UInt8)} (h : lines ≠ []) :
    (afterLines config peer lines).expectingProxyHeader = false := by
  induction lines using List.reverseRecOn with
  | nil => exact absurd rfl h
  | append_singleton lines line ih =>
      rw [afterLines_concat, Session.handleLine]
      split
      · rename_i herror
        apply ih
        rintro rfl
        cases herror
      · exact Session.expectingProxyHeader_processLine _ line

/-- Whatever lines a connection handles, its end point is guarded. -/
theorem guardsEndpoint (config : Configuration ε) (peer : IPEndPoint) (lines : List (List UInt8)) :
    GuardsEndpoint config peer lines := by
  intro before line _ hchange
  rw [afterLines_concat] at hchange
  by_cases hbefore : before = []
  · subst hbefore
    exact ⟨rfl, Session.isTrusted_of_remoteEndpoint_ne hchange⟩
  · exact absurd (Session.remoteEndpoint_handleLine
      (expectingProxyHeader_afterLines hbefore) line) hchange

/-- No request is handled before the mandatory header. -/
theorem beginsWithHeader_of_requests (henable : config.proxyProtocol.enable = true)
    (hmandatory : config.proxyProtocol.mandatory = true) {lines : List (List UInt8)}
    (h : (afterLines config peer lines).requests ≠ []) :
    BeginsWithHeader lines ∧ IsTrusted config peer.address := by
  cases lines with
  | nil => exact absurd rfl h
  | cons line lines =>
      have hexpecting : (connect config peer).expectingProxyHeader = true := henable
      cases hheader : processProxyHeader config peer line with
      | error exception =>
          obtain ⟨hrequests, herror⟩ := Session.refuses hexpecting hheader
          rw [afterLines, List.foldl_cons] at h
          change (lines.foldl _ ((connect config peer).processLine config line)).requests ≠ [] at h
          rw [Session.handleLine_of_error config herror] at h
          exact absurd hrequests h
      | ok endpoint =>
          cases endpoint with
          | none =>
              have hoptional := mandatory_of_processProxyHeader_eq_none hheader
              rw [hmandatory] at hoptional
              cases hoptional
          | some endpoint =>
              obtain ⟨hheaded, htrusted⟩ := processProxyHeader_eq_some hheader
              exact ⟨⟨line, rfl, hheaded⟩, htrusted⟩

end lines

namespace Connection

/-- The session of the connection is the one after the lines of what it read. -/
structure Reading (peer : IPEndPoint) (stream : List UInt8) (connection : Connection ε) :
    Prop where
  handled : ∃ lines, lines <+: completeLines newline stream ∧
    (connection.session = afterLines config peer lines ∨
      connection.session = (afterLines config peer lines).exceed config)
  reading : connection.session.error = none → ∃ seen pending, stream = seen ++ pending ∧
    connection.buffer = lastLine newline seen ++ pending ∧
    connection.session = afterLines config peer (completeLines newline seen)

variable {config} {peer : IPEndPoint} {stream : List UInt8} {connection : Connection ε}

theorem reading_start :
    Reading config peer [] (start (ε := ε) config.proxyProtocol.enable peer) where
  handled := ⟨[], List.nil_prefix, Or.inl rfl⟩
  reading _ := ⟨[], [], rfl, rfl, rfl⟩

theorem Reading.receive (h : Reading config peer stream connection) (chunk : List UInt8) :
    Reading config peer (stream ++ chunk) (connection.step config (.receive chunk)) where
  handled := by
    obtain ⟨lines, hlines, hsession⟩ := h.handled
    refine ⟨lines, hlines.trans ?_, hsession⟩
    rw [completeLines_append]
    exact List.prefix_append _ _
  reading hnone := by
    obtain ⟨seen, pending, hstream, hbuffer, hsession⟩ := h.reading hnone
    refine ⟨seen, pending ++ chunk, ?_, ?_, hsession⟩
    · rw [hstream, List.append_assoc]
    · rw [step, hbuffer, List.append_assoc]

theorem Reading.read (h : Reading config peer stream connection) :
    Reading config peer stream (connection.step config .read) := by
  obtain hstep | ⟨herror, hread⟩ := @step_read_cases _ config connection
  · rw [hstep]
    exact h
  · obtain ⟨seen, pending, hstream, hbuffer, hsession⟩ := h.reading herror
    obtain ⟨-, hstep⟩ | ⟨-, hstep⟩ := hread
    · rw [hstep]
      refine ⟨⟨completeLines newline seen, ?_, Or.inr ?_⟩, fun hnone => ?_⟩
      · rw [hstream, completeLines_append]
        exact List.prefix_append _ _
      · exact congrArg (Session.exceed config) hsession
      · cases hnone
    · obtain ⟨hlines, hrest⟩ := Session.processLines_eq_foldl config herror connection.buffer
      have hafter : (connection.session.processLines config connection.buffer).1 =
          afterLines config peer (completeLines newline stream) := by
        rw [hlines, hstream, completeLines_append, hbuffer, hsession, afterLines, afterLines,
          List.foldl_append]
      rw [hstep]
      refine ⟨⟨completeLines newline stream, List.prefix_rfl, Or.inl hafter⟩, fun hnone => ?_⟩
      refine ⟨stream, [], by rw [List.append_nil], ?_, hafter⟩
      rw [List.append_nil, hstream, lastLine_append, ← hbuffer]
      exact hrest hnone

/-- Every run of a connection reads its stream. -/
theorem reading_run (config : Configuration ε) (peer : IPEndPoint) (events : List Event) :
    Reading config peer (received events)
      ((start (ε := ε) config.proxyProtocol.enable peer).run config events) := by
  induction events using List.reverseRecOn with
  | nil => exact reading_start
  | append_singleton events event ih =>
      rw [run_concat, received, List.flatMap_append, List.flatMap_singleton]
      cases event with
      | receive chunk => exact ih.receive chunk
      | read =>
          rw [List.append_nil]
          exact ih.read

/-- The connection handles the lines of its stream in order, its end point is guarded, and requests
are only heard behind a header when one is required. -/
structure Gates (config : Configuration ε) (requiresHeader : Bool) (peer : IPEndPoint)
    (events : List Event) : Prop where
  inOrder : ∃ lines, lines <+: completeLines newline (received events) ∧
    (((start config.proxyProtocol.enable peer).run config events).session =
        afterLines config peer lines ∨
      ((start config.proxyProtocol.enable peer).run config events).session =
        (afterLines config peer lines).exceed config)
  endpoint : GuardsEndpoint config peer (completeLines newline (received events))
  header : requiresHeader = true →
    ((start config.proxyProtocol.enable peer).run config events).session.requests ≠ [] →
      BeginsWithHeader (completeLines newline (received events))

theorem BeginsWithHeader.of_prefix {lines others : List (List UInt8)} (h : BeginsWithHeader lines)
    (hheaded : lines <+: others) : BeginsWithHeader others := by
  obtain ⟨line, hline, hheader⟩ := h
  obtain ⟨rest, rfl⟩ := hheaded
  refine ⟨line, ?_, hheader⟩
  rw [List.head?_append, hline]
  rfl

/-- Every connection passes the gate when the proxy protocol is enabled and the header mandatory,
and keeps its end point guarded in any case. -/
theorem gates_of_enable_and_mandatory (config : Configuration ε) (peer : IPEndPoint)
    (events : List Event) :
    Gates config (config.proxyProtocol.enable && config.proxyProtocol.mandatory) peer events where
  inOrder := (reading_run config peer events).handled
  endpoint := guardsEndpoint config peer _
  header hrequired hrequests := by
    obtain ⟨henable, hmandatory⟩ := Bool.and_eq_true_iff.mp hrequired
    obtain ⟨lines, hlines, hsession⟩ := (reading_run config peer events).handled
    have hafter : (afterLines config peer lines).requests ≠ [] := by
      obtain hsession | hsession := hsession
      · rwa [hsession] at hrequests
      · rwa [hsession] at hrequests
    exact BeginsWithHeader.of_prefix (beginsWithHeader_of_requests henable hmandatory hafter).1
      hlines

/-- A mandatory header of a proxy protocol that is not enabled. -/
def mandatoryOnly : Configuration Empty where
  maxInboundRequestLength := inboundLimit 0
  proxyProtocol := ⟨false, true, none⟩
  parseAddress _ := none
  parsePort _ := none
  onRequest _ _ := .ok ()

/-- A request gets through without the header that is mandatory. -/
theorem not_gates_mandatory :
    ¬ Gates mandatoryOnly mandatoryOnly.proxyProtocol.mandatory ⟨"10.0.0.1", 50000⟩
      [.receive [newline], .read] := by
  intro hgates
  have hlines : completeLines newline [newline] = [[]] := by decide
  have hread : ((start mandatoryOnly.proxyProtocol.enable ⟨"10.0.0.1", 50000⟩).run mandatoryOnly
      [.receive [newline], .read]).session =
      ((start mandatoryOnly.proxyProtocol.enable ⟨"10.0.0.1", 50000⟩).session.processLines
        mandatoryOnly [newline]).1 := by
    rw [run, List.foldl_cons, List.foldl_cons, List.foldl_nil, step, step, processReceivePipe,
      if_neg (by decide), if_neg (by decide)]
    rfl
  have hrequests : ((start mandatoryOnly.proxyProtocol.enable ⟨"10.0.0.1", 50000⟩).run mandatoryOnly
      [.receive [newline], .read]).session.requests = [[]] := by
    rw [hread, (Session.processLines_eq_foldl mandatoryOnly rfl [newline]).1, hlines]
    rfl
  obtain ⟨line, hline, hheader⟩ := hgates.header rfl (by rw [hrequests]; simp)
  obtain rfl : [] = line := by simpa [received, hlines] using hline
  exact absurd hheader (by decide)

end Connection

end Miningcore.StratumConnection
