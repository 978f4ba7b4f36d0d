import ClientServerApp.Network.CommandLine
import ClientServerApp.Network.Copies
import ClientServerApp.Library.BrokerState

/-! The server with the subscribers that connect to it, as one system. What one program sends waits in a queue
until the program at the other end handles it, and a handler call of any program may come next. System calls
succeed, and one `recv` returns what one `send` passed. -/
namespace ClientServerApp.Network.Closed
open Traced
open Server (Srv)

/-- A subscriber, the commands on their way to the server and the messages on their way back. `serverFd` is the
server's descriptor of the connection while it has one. -/
structure Client where
  sub : Subscriber.Sub
  upstream : Channel (List UInt8)
  downstream : Channel SrvMsg
  serverFd : Option Int32
  running : Bool

/-- The server until it exits, the subscribers in the order in which they connect, and how many of the connections
were accepted. -/
structure System where
  server : Option Srv
  clients : List Client
  accepted : ℕ

/-- A handler call, or a subscriber that starts. Subscriber `k` is typed a line or handles the next message of the
server; the server accepts the next connection, reads the next command of subscriber `k`, a datagram or a line. A
stack is what the buffer of the handler holds before. -/
inductive Event
  | start (sub : Subscriber.Sub)
  | line (k : ℕ) (line : List UInt8)
  | handle (k : ℕ) (stack : Buffer srvMsgSize)
  | accept (fd : Int32) (addr : Server.SockAddr) (stack : Buffer (maxIdSize+1))
  | read (k : ℕ) (stack : Buffer subMsgSize)
  | datagram (dgram : Server.Datagram)
  | console (line : List UInt8)

namespace Client
variable (client : Client)

def hear (fd : Int32) (msg : SrvMsg) : Client :=
  if client.serverFd = some fd then { client with downstream := client.downstream.push msg } else client

def lose (fd : Int32) : Client := if client.serverFd = some fd then { client with serverFd := none } else client

def send (bytes : List UInt8) : Client := { client with upstream := client.upstream.push bytes }

/-- The subscriber after a handler call: what it sent is on its way, and it may have exited. -/
def after (run : Subscriber.Action Unit) : Outcome Client :=
  let client := (sends run.out).foldl send client
  match run.result with
  | .ok _ => .ok client
  | .error .exit => .ok { client with running := false }
  | .error e => .error e

/-- A line typed to the subscriber. -/
def type (order : ByteOrder) (line : List UInt8) : Outcome Client :=
  if client.running then client.after (Subscriber.handleStdinMsg order client.sub .ok (some line)) else .ok client

/-- The subscriber handles the next message. -/
def handle (order : ByteOrder) (stack : Buffer srvMsgSize) : Outcome Client :=
  if client.running then match client.downstream.pending with
    | [] => .ok client
    | msg :: _ => { client with downstream := client.downstream.take }.after
        (Subscriber.handleServerMsg order client.sub ⟨stack,some (msg.bytes order),.ok⟩)
  else .ok client

/-- What the server receives first on the connection. -/
def hello : List UInt8 := Subscriber.sentBytes (Subscriber.connectToServer client.sub .ok).out

end Client

/-- What an effect of the server does to its connections. -/
def perform (sys : System) : Server.Effect → System
  | .accept fd => { sys with clients := sys.clients.modify sys.accepted ({ · with serverFd := some fd }),
                             accepted := sys.accepted+1 }
  | .send fd msg => { sys with clients := sys.clients.map (·.hear fd msg) }
  | .close fd => { sys with clients := sys.clients.map (·.lose fd) }
  | .print _ => sys

/-- A handler call of the server. It may exit; what halts it else fails the system. -/
def serve (order : ByteOrder) (sys : System) (srv : Srv) (e : Server.Event) : Traced Halt Server.Effect System :=
  let run := Server.step order srv e
  let after := run.out.foldl perform sys
  match run.result with
  | .ok srv => ⟨run.out,.ok { after with server := some srv }⟩
  | .error .exit => ⟨run.out,.ok { after with server := none }⟩
  | .error e => ⟨run.out,.error e⟩

/-- Subscriber `k` goes on alone. -/
def advance (sys : System) (k : ℕ) (f : Client → Outcome Client) : Traced Halt Server.Effect System :=
  match sys.clients[k]? with
  | none => pure sys
  | some client => do
    let client ← lift (f client)
    pure { sys with clients := sys.clients.set k client }

def step (order : ByteOrder) (sys : System) : Event → Traced Halt Server.Effect System
  | .start sub => pure { sys with clients := sys.clients ++ [⟨sub,.empty,.empty,none,true⟩] }
  | .line k line => advance sys k (·.type order line)
  | .handle k stack => advance sys k (·.handle order stack)
  | .accept fd addr stack => match sys.server,sys.clients[sys.accepted]? with
    | some srv,some client => serve order sys srv (.connection ⟨fd,addr,false,stack,some client.hello,.ok⟩)
    | _,_ => pure sys
  | .read k stack => match sys.server,sys.clients[k]? with
    | some srv,some client => match client.serverFd,client.upstream.pending with
      | some fd,bytes :: _ =>
        serve order { sys with clients := sys.clients.set k { client with upstream := client.upstream.take } } srv
          (.message fd ⟨stack,some bytes,.ok⟩)
      | _,_ => pure sys
    | _,_ => pure sys
  | .datagram dgram => match sys.server with
    | some srv => serve order sys srv (.datagram dgram)
    | none => pure sys
  | .console line => match sys.server with
    | some srv => serve order sys srv (.command .ok (some line))
    | none => pure sys

/-- The initialised server and no subscriber; the log is that of the server. -/
def machine (order : ByteOrder) (udpSockFd tcpSockFd : Int32) : Runs.Machine System Event Halt Server.Effect where
  init := ⟨some (Server.initSrv udpSockFd tcpSockFd),[],0⟩
  step := step order

/-- What the users, the publishers and the kernel are trusted with: ids and topics fit and are words, no command is
typed without its topic, a datagram has a type and ends no subscriber, `accept` returns a descriptor that is not
open, and nothing is queued behind an id that the server is about to read. -/
def Proper (base : Finset Int32) (t : List Server.Effect) (sys : System) : Event → Prop
  | .start sub => sub.id ≠ [] ∧ sub.id.length ≤ maxIdSize ∧ 0 ∉ sub.id
  | .line _ line => tokens line ≠ [chars "subscribe"] ∧ tokens line ≠ [chars "unsubscribe"] ∧
      ∀ c : Command, tokens line = c.tokens → c.topic.length ≤ maxTopicSize → IsTopic c.topic
  | .accept fd _ _ => fd ≠ -1 ∧ fd ∉ Server.openFds base t ∧
      ∀ client, sys.clients[sys.accepted]? = some client → client.upstream.pending = []
  | .datagram dgram => dgram.io = .ok ∧ ∃ got, dgram.received = some got ∧ maxTopicSize+1 ≤ got.length ∧
      got.length ≤ udpMsgSize ∧ IsTopic (cString (got.take maxTopicSize)) ∧ ¬ Lethal got
  | _ => True

/-- A run of the system whose environment keeps to that. -/
abbrev ProperRun (order : ByteOrder) (u w : Int32) : List Event → List Server.Effect → System → Prop :=
  Runs.GuardedRun (machine order u w) (Proper (Server.baseFds u w))

end ClientServerApp.Network.Closed
