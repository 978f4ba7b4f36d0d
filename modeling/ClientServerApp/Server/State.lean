import ClientServerApp.HashTable.Model
import ClientServerApp.Matcher.Model
import ClientServerApp.Messages
import ClientServerApp.Library.Runs
import Mathlib.Data.Finset.Insert

/-! The state of the server, the effects it performs on its environment and what its system calls
return to it. -/
namespace ClientServerApp.Server

/-- The address of a memory block that holds a `sub_t`: its position in the heap. -/
abbrev Ptr := ℕ

/-- `sub_t`; the id is the C string in its array. -/
structure Sub where
  id : List UInt8
  sockFd : Int32
  subscriptions : Trie topicAlphabet.length

structure Pollfd where
  fd : Int32
  events : UInt16
  revents : UInt16
  deriving DecidableEq, Repr

/-- `srv_t`, together with the blocks that the subscriber list and both tables point to. `subs`
lists the nodes from the head on. The array `pfds` has its allocated length. -/
structure Srv where
  udpSockFd : Int32
  tcpSockFd : Int32
  heap : List Sub
  subsById : Ht (List UInt8) Ptr
  subsByFd : Ht UInt32 Ptr
  subs : List Ptr
  pfds : List Pollfd
  nfds : ℕ
  maxNfds : ℕ

/-- What the server does to its environment: system calls that succeeded and lines on stdout. -/
inductive Effect
  | accept (fd : Int32)
  | send (fd : Int32) (msg : SrvMsg)
  | close (fd : Int32)
  | print (line : List UInt8)
  deriving DecidableEq

/-- `struct sockaddr_in`; both fields in network byte order. -/
structure SockAddr where
  sinAddr : Buffer 4
  sinPort : Buffer 2

/-- The descriptors on which the calls of `send` and `close` return -1. -/
structure Io where
  sendFails : List Int32
  closeFails : List Int32
  deriving DecidableEq

def Io.ok : Io := ⟨[],[]⟩

/-- What the system calls of `handle_listen_tcp_msg` return: the result of `accept`, the address,
whether `setsockopt` returns -1 and the bytes of the one `recv` (`none` for -1). `stack` is the
content of `new_sub.id` before. -/
structure Connection where
  fd : Int32
  addr : SockAddr
  setsockoptFails : Bool
  stack : Buffer (maxIdSize+1)
  received : Option (List UInt8)
  io : Io

/-- What the one `recv` of `handle_sub_msg` returns; `stack` is the content of `msg` before. -/
structure Incoming where
  stack : Buffer subMsgSize
  received : Option (List UInt8)
  io : Io

/-- What `recvfrom` returns to `handle_udp_msg`; `stack` is the content of `udp_msg` before. -/
structure Datagram where
  addr : SockAddr
  stack : Buffer udpMsgSize
  received : Option (List UInt8)
  io : Io

abbrev Action := Traced Halt Effect

open Traced

def send (io : Io) (fd : Int32) (msg : SrvMsg) : Action Unit :=
  if fd ∈ io.sendFails then halt (.die "send() failed\n") else emit (.send fd msg)

def close (io : Io) (fd : Int32) : Action Unit :=
  if fd ∈ io.closeFails then halt (.die "close() failed\n") else emit (.close fd)

def Srv.deref (srv : Srv) (p : Ptr) : Outcome Sub := defined srv.heap[p]?

/-- `pfds[i] = pfd` -/
def writePfd (pfds : List Pollfd) (i : ℕ) (pfd : Pollfd) : Outcome (List Pollfd) :=
  if i < pfds.length then .ok (pfds.set i pfd) else .error .undefined

def pollin : UInt16 := 1

/-- Memory fresh from `malloc` or `realloc`; no entry of `pfds` is read before it is written. -/
def freshPfds (n : ℕ) : List Pollfd := List.replicate n ⟨0,0,0⟩

def initPollFds (udpSockFd tcpSockFd : Int32) : List Pollfd :=
  [⟨0,pollin,0⟩,⟨udpSockFd,pollin,0⟩,⟨tcpSockFd,pollin,0⟩] ++ freshPfds (256-3)

/-- The state before the loop of `main`, after `init_poll_fds` and `init_subs`. -/
def initSrv (udpSockFd tcpSockFd : Int32) : Srv where
  udpSockFd := udpSockFd
  tcpSockFd := tcpSockFd
  heap := []
  subsById := htCreate 2 hashString compareStrings
  subsByFd := htCreate 2 hashUint compareUints
  subs := []
  pfds := initPollFds udpSockFd tcpSockFd
  nfds := 3
  maxNfds := 256

/-- The descriptors of the entries of `pfds` that belong to subscribers. -/
def Srv.watched (srv : Srv) : List Int32 := ((srv.pfds.take srv.nfds).drop 3).map Pollfd.fd

/-- The descriptors that are open after the effects, when `base` was open before. -/
def openFds (base : Finset Int32) (t : List Effect) : Finset Int32 :=
  t.foldl (fun fds effect => match effect with
    | .accept fd => insert fd fds
    | .close fd => fds.erase fd
    | _ => fds) base

def baseFds (udpSockFd tcpSockFd : Int32) : Finset Int32 := {0,1,2,udpSockFd,tcpSockFd}

/-- One handler call of the loop of `main` and what its system calls return. A message comes from
the subscriber entry of `pfds` with the given descriptor. -/
inductive Event
  | command (io : Io) (line : Option (List UInt8))
  | datagram (dgram : Datagram)
  | connection (conn : Connection)
  | message (fd : Int32) (msg : Incoming)

end ClientServerApp.Server
