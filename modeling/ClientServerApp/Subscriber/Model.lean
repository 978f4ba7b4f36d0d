import ClientServerApp.Subscriber.Printing
import ClientServerApp.Library.Runs

/-! The subscriber: the id it sends, its commands and the messages of the server. -/
namespace ClientServerApp.Subscriber
open Traced

/-- `sub_t`; neither the address of the server nor the poll array changes. -/
structure Sub where
  sockFd : Int32
  id : List UInt8

/-- Whether the calls of `send` and `close` return -1. -/
structure Io where
  sendFails : Bool
  closeFails : Bool

def Io.ok : Io := ⟨false,false⟩

/-- The branches of the switch in `handle_server_msg`. -/
inductive Branch
  | printIntMsg
  | printShortRealMsg
  | printFloatMsg
  | printStringMsg
  | closeConnection
  | invalidRecvMsg
  deriving DecidableEq, Repr

/-- What the subscriber does to its environment. `handle` is a message on which the switch takes the
branch. -/
inductive Effect
  | send (bytes : List UInt8)
  | close (fd : Int32)
  | print (line : List UInt8)
  | handle (branch : Branch) (msg : SrvMsg)
  deriving DecidableEq

/-- A computation of the subscriber. -/
abbrev Action := Traced Halt Effect

/-- What the one `recv` of `handle_server_msg` returns; `stack` is the content of `msg` before. -/
structure Incoming where
  stack : Buffer srvMsgSize
  received : Option (List UInt8)
  io : Io

def send (io : Io) (bytes : List UInt8) : Action Unit :=
  if io.sendFails then halt (.die "send() failed\n") else emit (.send bytes)

def close (sub : Sub) (io : Io) : Action Unit :=
  if io.closeFails then halt (.die "close() failed\n") else emit (.close sub.sockFd)

/-- `connect_to_server` once the socket is connected. -/
def connectToServer (sub : Sub) (io : Io) : Action Unit := send io sub.id

def stopProgram (order : ByteOrder) (sub : Sub) (io : Io) (arguments : List (List UInt8)) : Action Unit :=
  if arguments ≠ [] then emit (.print (chars "Invalid arguments for command.\n"))
  else do
    send io (SubMsg.bytes order ⟨closeSubMsg,Buffer.zeroed _⟩)
    close sub io
    halt .exit

/-- The message of a command: the topic and a NUL over a zeroed field. -/
def commandMsg (command topic : List UInt8) : SubMsg where
  type := if command = chars "subscribe" then subscribeSubMsg else unsubscribeSubMsg
  topic := (Buffer.zeroed _).overwrite (topic ++ [0])

/-- Without an argument `strlen` is called on `NULL`. -/
def updateSubscriptions (order : ByteOrder) (io : Io) (command : List UInt8) : List (List UInt8) → Action Unit
  | [] => halt .undefined
  | [topic] =>
    if maxTopicSize < topic.length then
      emit (.print (chars "The topic can have maximum " ++ decimal maxTopicSize ++ chars " chars.\n"))
    else do
      send io ((commandMsg command topic).bytes order)
      emit (.print ((if command = chars "subscribe" then chars "Subscribed to topic "
        else chars "Unsubscribed from topic ") ++ topic ++ chars "\n"))
  | _ => emit (.print (chars "Invalid arguments for command.\n"))

/-- `getline` returns the line, or -1. -/
def handleStdinMsg (order : ByteOrder) (sub : Sub) (io : Io) (line : Option (List UInt8)) : Action Unit :=
  match line with
  | none => halt (.die "getline() failed\n")
  | some line => match tokens line with
    | [] => emit (.print (chars "Invalid command.\n"))
    | command :: arguments =>
      if command = chars "exit" then stopProgram order sub io arguments
      else if command = chars "subscribe" ∨ command = chars "unsubscribe" then
        updateSubscriptions order io command arguments
      else emit (.print (chars "Invalid command.\n"))

/-- The branch of the switch for a type. -/
def branch (type : UInt8) : Branch :=
  if type = intSrvMsg then .printIntMsg
  else if type = shortRealSrvMsg then .printShortRealMsg
  else if type = floatSrvMsg then .printFloatMsg
  else if type = stringSrvMsg then .printStringMsg
  else if type = closeSrvMsg then .closeConnection
  else .invalidRecvMsg

/-- What a branch of the switch prints. -/
def lineOf (order : ByteOrder) (msg : SrvMsg) : Branch → Outcome (List UInt8)
  | .printIntMsg => printIntMsg order msg
  | .printShortRealMsg => printShortRealMsg Rounding.binary64 order msg
  | .printFloatMsg => printFloatMsg Rounding.binary64 order msg
  | .printStringMsg => printStringMsg order msg
  | .closeConnection => .ok []
  | .invalidRecvMsg => printInvalidMsg msg

/-- The number of received bytes is compared with -1 only, as in `handle_sub_msg`. -/
def handleServerMsg (order : ByteOrder) (sub : Sub) (incoming : Incoming) : Action Unit :=
  match incoming.received with
  | none => halt (.die "recv() failed\n")
  | some got => do
    let msg := SrvMsg.ofBytes order (incoming.stack.overwrite got)
    emit (.handle (branch msg.type) msg)
    if branch msg.type = .closeConnection then do
      close sub incoming.io
      halt .exit
    else do
      let line ← lift (lineOf order msg (branch msg.type))
      emit (.print line)

/-- One handler call of the loop of `main` and what its system calls return. -/
inductive Event
  | command (io : Io) (line : Option (List UInt8))
  | message (incoming : Incoming)

def step (order : ByteOrder) (sub : Sub) : Event → Action Unit
  | .command io line => handleStdinMsg order sub io line
  | .message incoming => handleServerMsg order sub incoming

/-- The subscriber after `connect_to_server` and `init_poll_fds`; its loop keeps no state. -/
def machine (order : ByteOrder) (sub : Sub) : Runs.Machine Unit Event Halt Effect where
  init := ()
  step := fun _ => step order sub

/-- The bytes that the effects put on the connection. -/
def sentBytes (t : List Effect) : List UInt8 := t.flatMap fun effect => match effect with
  | .send bytes => bytes
  | _ => []

/-- The messages that the switch was entered with, in order. -/
def handled (t : List Effect) : List SrvMsg := t.filterMap fun effect => match effect with
  | .handle _ msg => some msg
  | _ => none

/-- The lines on the screen. -/
def printedLines (t : List Effect) : List (List UInt8) := t.filterMap fun effect => match effect with
  | .print line => some line
  | _ => none

end ClientServerApp.Subscriber
