import ClientServerApp.Server.Handlers
import ClientServerApp.Subscriber.Model

/-! The server and the subscribers at the other ends of its connections. A message that the server
sends waits at its end of the connection until the subscriber there handles it; both ends may go on
in any order. -/
namespace ClientServerApp.Network
open Traced
open Server (Srv)

/-- The code that built a message: `handle_udp_msg` or `srv_closes_sub_connection`. -/
inductive Origin
  | relayed
  | closing
  deriving DecidableEq, Repr

/-- How a subscriber stands: it runs, a message of the server ended it, or something else did. -/
inductive Status
  | running
  | left
  | ended (origin : Origin)
  deriving DecidableEq, Repr

structure Endpoint where
  inbox : List (Origin × SrvMsg)
  status : Status

def Endpoint.push (m : Origin × SrvMsg) (ep : Endpoint) : Endpoint := { ep with inbox := ep.inbox ++ [m] }

/-- The connections accepted so far, oldest first, and those that open descriptors of the server stand
for. -/
structure Wires where
  endpoints : List Endpoint
  attached : Int32 → Option ℕ

structure System where
  server : Option Srv
  wires : Wires

structure Host where
  order : ByteOrder
  sub : Subscriber.Sub

/-- A handler call of the server, or one of the subscriber of a connection: a command, or what the
server sent next, which arrives whole. -/
inductive Event
  | server (e : Server.Event)
  | command (k : ℕ) (io : Subscriber.Io) (line : Option (List UInt8))
  | message (k : ℕ) (stack : Buffer srvMsgSize) (io : Subscriber.Io)

def origin : Server.Event → Origin
  | .datagram _ => .relayed
  | _ => .closing

/-- What an effect of the server does to its connections. -/
def perform (origin : Origin) (wires : Wires) : Server.Effect → Wires
  | .accept fd =>
    ⟨wires.endpoints ++ [⟨[],.running⟩],Function.update wires.attached fd (some wires.endpoints.length)⟩
  | .send fd msg => match wires.attached fd with
    | none => wires
    | some k => { wires with endpoints := wires.endpoints.modify k (Endpoint.push (origin,msg)) }
  | .close fd => { wires with attached := Function.update wires.attached fd none }
  | .print _ => wires

def Endpoint.command (host : Host) (io : Subscriber.Io) (line : Option (List UInt8)) (ep : Endpoint) : Endpoint :=
  match ep.status with
  | .running => match (Subscriber.handleStdinMsg host.order host.sub io line).result with
    | .ok _ => ep
    | .error _ => { ep with status := .left }
  | _ => ep

/-- The subscriber handles its next message; with none on its way only the end of the stream makes
`recv` return. -/
def Endpoint.message (order : ByteOrder) (host : Host) (stack : Buffer srvMsgSize) (io : Subscriber.Io)
    (ep : Endpoint) : Endpoint :=
  match ep.status,ep.inbox with
  | .running,[] =>
    match (Subscriber.handleServerMsg host.order host.sub ⟨stack,some [],io⟩).result with
    | .ok _ => ep
    | .error _ => { ep with status := .left }
  | .running,(origin,msg) :: inbox =>
    match (Subscriber.handleServerMsg host.order host.sub ⟨stack,some (msg.bytes order),io⟩).result with
    | .ok _ => { ep with inbox := inbox }
    | .error _ => ⟨inbox,.ended origin⟩
  | _,_ => ep

/-- A server that halts has performed its effects up to there. -/
def step (order : ByteOrder) (host : ℕ → Host) (sys : System) : Event → Traced Halt Server.Effect System
  | .server e => match sys.server with
    | none => pure sys
    | some srv =>
      let run := Server.step order srv e
      ⟨run.out,.ok ⟨run.result.toOption,run.out.foldl (perform (origin e)) sys.wires⟩⟩
  | .command k io line =>
    pure { sys with wires := { sys.wires with
      endpoints := sys.wires.endpoints.modify k (Endpoint.command (host k) io line) } }
  | .message k stack io =>
    pure { sys with wires := { sys.wires with
      endpoints := sys.wires.endpoints.modify k (Endpoint.message order (host k) stack io) } }

/-- The server after its initialisation and no connection; the log is that of the server. -/
def machine (order : ByteOrder) (host : ℕ → Host) (udpSockFd tcpSockFd : Int32) :
    Runs.Machine System Event Halt Server.Effect where
  init := ⟨some (Server.initSrv udpSockFd tcpSockFd),⟨[],fun _ => none⟩⟩
  step := step order host

end ClientServerApp.Network
