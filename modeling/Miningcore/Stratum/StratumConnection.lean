import Miningcore.Foundation.LineSplitting

/-!
# Receiving lines on a stratum connection

The bytes of the socket go into a pipe. A read of the pipe sees all of them that
no read has consumed, and takes the complete lines off. The first line may be a
header of the proxy protocol; every other line goes to the request handler.

## Implementation notes

A line is the list of its bytes and the tests of the header's text are made on
the bytes. A configured address is its text, an address its canonical spelling. What
a request does depends on the lines handled before it, so the exception it throws, if
any, is a function of these and of its own line. The pause of the writer at a full
pipe only holds chunks back and is left out.
-/

namespace Miningcore.StratumConnection

open Foundation

def newline : UInt8 := 10

def space : UInt8 := 32

def defaultMaxInboundRequestLength : Nat := 0x8000

/-- The constructor's bound on the received data. -/
def inboundLimit (maxInboundRequestLength : Int) : Nat :=
  if maxInboundRequestLength > 0 then maxInboundRequestLength.toNat
  else defaultMaxInboundRequestLength

structure IPEndPoint where
  address : String
  port : Nat
deriving DecidableEq

structure TcpProxyProtocolConfig where
  enable : Bool
  mandatory : Bool
  proxyAddresses : Option (List (List UInt8))
deriving DecidableEq

inductive StratumException (ε : Type*) where
  | invalidData (message : String)
  | indexOutOfRange
  | format
  | request (exception : ε)
deriving DecidableEq

/-- What the receive loop of a connection calls and is configured with. -/
structure Configuration (ε : Type*) where
  maxInboundRequestLength : Nat
  proxyProtocol : TcpProxyProtocolConfig
  parseAddress : List UInt8 → Option String
  parsePort : List UInt8 → Option Nat
  onRequest : List (List UInt8) → List UInt8 → Except ε Unit

/-- What was done with a line. -/
inductive HandledLine where
  | proxyHeader (line : List UInt8)
  | request (line : List UInt8)
deriving DecidableEq

structure Session (ε : Type*) where
  expectingProxyHeader : Bool
  remoteEndpoint : IPEndPoint
  lines : List HandledLine
  error : Option (StratumException ε)

variable {ε : Type*} (config : Configuration ε)

def loopbackAddresses : List String := ["127.0.0.1", "::ffff:127.0.0.1", "::1"]

/-- The addresses a header may come from, when the configured ones are addresses. -/
def trustedProxies : Option (List String) :=
  match config.proxyProtocol.proxyAddresses with
  | none => some loopbackAddresses
  | some texts => (texts.mapM config.parseAddress).map fun addresses =>
      if addresses.isEmpty then loopbackAddresses else addresses

/-- "PROXY " -/
def proxyPrefix : List UInt8 := [80, 82, 79, 88, 89, 32]

/-- The end point the header names. -/
def parseProxyHeader (line : List UInt8) : Except (StratumException ε) IPEndPoint :=
  let parts := line.splitOn space
  match parts[2]?, parts[4]? with
  | some remoteAddress, some remotePort =>
      match config.parseAddress remoteAddress, config.parsePort remotePort with
      | some address, some port => .ok ⟨address, port⟩
      | _, _ => .error .format
  | _, _ => .error .indexOutOfRange

/-- The end point behind the proxy when the line is its header, and none when the line is not. -/
def processProxyHeader (remoteEndpoint : IPEndPoint) (line : List UInt8) :
    Except (StratumException ε) (Option IPEndPoint) :=
  let peerAddress := remoteEndpoint.address
  if proxyPrefix.isPrefixOf line then
    match trustedProxies config with
    | none => .error .format
    | some proxyAddresses =>
        if peerAddress ∈ proxyAddresses then
          (parseProxyHeader config line).map some
        else
          .error (.invalidData s!"Received spoofed Proxy-Protocol header from {peerAddress}")
  else if config.proxyProtocol.mandatory then
    .error (.invalidData
      s!"Missing mandatory Proxy-Protocol header from {peerAddress}. Closing connection.")
  else .ok none

def HandledLine.bytes : HandledLine → List UInt8
  | .proxyHeader line => line
  | .request line => line

namespace Session

/-- The lines the request handler was called with. -/
def requests (session : Session ε) : List (List UInt8) :=
  session.lines.filterMap fun
    | .proxyHeader _ => none
    | .request line => some line

def processRequest (session : Session ε) (line : List UInt8) : Session ε :=
  { session with
    lines := session.lines ++ [.request line]
    error := match config.onRequest session.requests line with
      | .ok () => none
      | .error exception => some (.request exception) }

/-- The body of the loop over the lines. -/
def processLine (session : Session ε) (line : List UInt8) : Session ε :=
  if session.expectingProxyHeader then
    let session := { session with expectingProxyHeader := false }
    match processProxyHeader config session.remoteEndpoint line with
    | .error exception =>
        { session with lines := session.lines ++ [.proxyHeader line], error := some exception }
    | .ok (some endpoint) =>
        { session with lines := session.lines ++ [.proxyHeader line], remoteEndpoint := endpoint }
    | .ok none => session.processRequest config line
  else session.processRequest config line

/-- The loop over the lines; an exception leaves it. The second component is what is left. -/
def processLines (session : Session ε) (buffer : List UInt8) : Session ε × List UInt8 :=
  match h : takeLine newline buffer with
  | none => (session, buffer)
  | some (line, rest) =>
      have := takeLine_decreasing newline buffer h
      let session := session.processLine config line
      match session.error with
      | some _ => (session, rest)
      | none => processLines session rest
termination_by buffer.length

end Session

def exceedsMaximum (maximum : Nat) : StratumException ε :=
  .invalidData s!"Incoming data exceeds maximum of {maximum}"

/-- A connection and the pipe its bytes arrive in. -/
structure Connection (ε : Type*) where
  session : Session ε
  buffer : List UInt8 := []
  examined : Nat := 0

inductive Event where
  /-- The socket gives a chunk to the pipe. -/
  | receive (chunk : List UInt8)
  /-- A read of the pipe completes. -/
  | read
deriving DecidableEq

namespace Connection

/-- One round of the receive loop, which a pipe without unexamined bytes holds back. -/
def processReceivePipe (connection : Connection ε) : Connection ε :=
  if connection.session.error.isSome || connection.buffer.length == connection.examined then
    connection
  else if connection.buffer.length > config.maxInboundRequestLength then
    { connection with session := { connection.session with
        error := some (exceedsMaximum config.maxInboundRequestLength) } }
  else
    let (session, rest) := connection.session.processLines config connection.buffer
    { session, buffer := rest, examined := rest.length }

def step (connection : Connection ε) : Event → Connection ε
  | .receive chunk => { connection with buffer := connection.buffer ++ chunk }
  | .read => connection.processReceivePipe config

def run (connection : Connection ε) (events : List Event) : Connection ε :=
  events.foldl (step config) connection

end Connection

end Miningcore.StratumConnection
