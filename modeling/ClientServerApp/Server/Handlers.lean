import ClientServerApp.Server.State

/-! The handlers of `server.c` and the machine that the loop of `main` drives. -/
namespace ClientServerApp.Server
open Traced

/-- `ntohl` on a number as the host loaded it. -/
def ntohl (order : ByteOrder) (x : UInt32) : UInt32 := ByteOrder.big.load32 (order.store32 x)

def ntohs (order : ByteOrder) (x : UInt16) : UInt16 := ByteOrder.big.load16 (order.store16 x)

/-- The four bytes in memory, in decimal, with dots. -/
def inetNtoa (sinAddr : Buffer 4) : List UInt8 :=
  List.intercalate (chars ".") (sinAddr.toList.map fun b => decimal b.toNat)

/-- The relayed copy of a datagram. The length of the third `memcpy` is computed in `size_t` and
is checked against neither array. -/
def srvMsg (order : ByteOrder) (addr : SockAddr) (udpMsg : UdpMsg) (recvBytes : ℕ) : Outcome SrvMsg :=
  let count := UInt64.ofNat recvBytes - UInt64.ofNat maxTopicSize - 1
  if UInt64.ofNat maxDataSize < count then .error .undefined
  else .ok {
    type := udpMsg.type
    providerIp := ntohl order (order.load32 addr.sinAddr.toList)
    providerPort := ntohs order (order.load16 addr.sinPort.toList)
    topic := (Buffer.zeroed _).overwrite udpMsg.topic.toList
    data := (Buffer.zeroed _).overwrite (udpMsg.data.toList.take count.toNat) }

/-- The body of the loop of `handle_udp_msg`. -/
def sendToSubscriber (srv : Srv) (io : Io) (msg : SrvMsg) (p : Ptr) : Action Unit := do
  let sub ← lift (srv.deref p)
  if sub.sockFd = -1 then pure ()
  else do
    let topic ← lift (readString msg.topic.toList)
    let wanted ← lift (isSubscribed sub.subscriptions.root topic)
    if wanted then send io sub.sockFd msg else pure ()

/-- The loop of `handle_udp_msg` over the nodes of the subscriber list. -/
def sendToSubscribers (srv : Srv) (io : Io) (msg : SrvMsg) : List Ptr → Action Unit
  | [] => pure ()
  | p :: rest => do
    sendToSubscriber srv io msg p
    sendToSubscribers srv io msg rest

def handleUdpMsg (order : ByteOrder) (srv : Srv) (dgram : Datagram) : Action Unit :=
  match dgram.received with
  | none => halt (.die "recv() failed\n")
  | some got => do
    let msg ← lift (srvMsg order dgram.addr (UdpMsg.ofBytes (dgram.stack.overwrite got)) got.length)
    sendToSubscribers srv dgram.io msg srv.subs

/-- `srv_closes_sub_connection` on a `sock_fd`; the new value is returned. -/
def srvClosesSubConnection (io : Io) (sockFd : Int32) : Action Int32 :=
  if sockFd ≠ -1 then do
    send io sockFd ⟨closeSrvMsg,0,0,Buffer.zeroed _,Buffer.zeroed _⟩
    close io sockFd
    pure (-1)
  else pure sockFd

def addPfd (srv : Srv) (fd : Int32) : Outcome Srv := do
  let srv := if srv.nfds = srv.maxNfds then
      { srv with maxNfds := 2*srv.maxNfds, pfds := srv.pfds ++ freshPfds srv.maxNfds }
    else srv
  let pfds ← writePfd srv.pfds srv.nfds ⟨fd,pollin,0⟩
  pure { srv with pfds := pfds, nfds := srv.nfds+1 }

/-- The line printed for a connection. -/
def connectedLine (order : ByteOrder) (id : List UInt8) (addr : SockAddr) : List UInt8 :=
  chars "New client " ++ id ++ chars " connected from " ++ inetNtoa addr.sinAddr ++ chars ":" ++
    decimal (ntohs order (order.load16 addr.sinPort.toList)).toNat ++ chars ".\n"

/-- The nesting of `ht_put` that the calls of the server are given. -/
def putDepth : ℕ := 2

def addNewSub (order : ByteOrder) (srv : Srv) (id : List UInt8) (sockFd : Int32) (addr : SockAddr) :
    Action Srv := do
  let srv ← lift (addPfd srv sockFd)
  let newSub : Sub := ⟨id,sockFd,trieCreate 1 topicAlphabet.length topicAlphabet⟩
  let subPtr := srv.heap.length
  let srv := { srv with heap := srv.heap ++ [newSub], subs := llAddNthNode srv.subs 0 subPtr }
  let subsByFd ← lift (htPut putDepth srv.subsByFd sockFd.toUInt32 subPtr)
  let subsById ← lift (htPut putDepth srv.subsById id subPtr)
  emit (.print (connectedLine order id addr))
  pure { srv with subsByFd := subsByFd, subsById := subsById }

def reviveSubConnection (order : ByteOrder) (srv : Srv) (p : Ptr) (sockFd : Int32) (addr : SockAddr) :
    Action Srv := do
  let sub ← lift (srv.deref p)
  let srv ← lift (addPfd { srv with heap := srv.heap.set p { sub with sockFd := sockFd } } sockFd)
  let subsByFd ← lift (htPut putDepth srv.subsByFd sockFd.toUInt32 p)
  emit (.print (connectedLine order sub.id addr))
  pure { srv with subsByFd := subsByFd }

/-- The string in `new_sub.id` after `new_sub.id[ret] = 0`. -/
def receivedId (stack : Buffer (maxIdSize+1)) (got : List UInt8) : Outcome (List UInt8) :=
  if maxIdSize < got.length then .error .undefined
  else readString ((stack.overwrite got).toList.set got.length 0)

def handleListenTcpMsg (order : ByteOrder) (srv : Srv) (conn : Connection) : Action Srv :=
  if conn.fd = -1 then halt (.die "accept() failed\n")
  else do
    emit (.accept conn.fd)
    if conn.setsockoptFails then halt (.die "setsockopt() failed\n")
    else match conn.received with
      | none => halt (.die "recv() failed\n")
      | some got => do
        let id ← lift (receivedId conn.stack got)
        if htHasKey srv.subsById id then do
          let p ← lift (defined (htGet srv.subsById id))
          let oldSub ← lift (srv.deref p)
          if oldSub.sockFd = -1 then reviveSubConnection order srv p conn.fd conn.addr
          else do
            let _ ← srvClosesSubConnection conn.io conn.fd
            emit (.print (chars "Client " ++ oldSub.id ++ chars " already connected.\n"))
            pure srv
        else addNewSub order srv id conn.fd conn.addr

def rmvSubscription (subscriptions : Trie topicAlphabet.length) (topic : List UInt8) :
    Outcome (Trie topicAlphabet.length) := do
  match ← trieSearch subscriptions topic with
  | some _ => trieRemove subscriptions topic
  | none => pure subscriptions

/-- The value is the string `"TOPIC"`. -/
def addSubscription (subscriptions : Trie topicAlphabet.length) (topic : List UInt8) :
    Outcome (Trie topicAlphabet.length) := trieInsert subscriptions topic (chars "TOPIC" ++ [0])

/-- The loop that moves every entry after `pfdIdx` one place to the left. -/
def shiftPfds (pfds : List Pollfd) (pfdIdx nfds : ℕ) : Outcome (List Pollfd) :=
  (List.range' pfdIdx (nfds - 1 - pfdIdx)).foldlM
    (fun pfds j => do writePfd pfds j (← defined pfds[j+1]?)) pfds

def subClosesSrvConnection (srv : Srv) (io : Io) (p : Ptr) (pfdIdx : ℕ) : Action (Srv × ℕ) := do
  let sub ← lift (srv.deref p)
  close io sub.sockFd
  let pfd ← lift (defined srv.pfds[pfdIdx]?)
  let subsByFd := htRemoveEntry srv.subsByFd pfd.fd.toUInt32
  let pfds ← lift (shiftPfds srv.pfds pfdIdx srv.nfds)
  emit (.print (chars "Client " ++ sub.id ++ chars " disconnected.\n"))
  pure ({ srv with heap := srv.heap.set p { sub with sockFd := -1 }, subsByFd := subsByFd, pfds := pfds,
                   nfds := srv.nfds-1 }, pfdIdx-1)

/-- The part of `handle_sub_msg` after the reception. -/
def executeSubMsg (srv : Srv) (io : Io) (p : Ptr) (pfdIdx : ℕ) (msg : SubMsg) : Action (Srv × ℕ) :=
  if msg.type = unsubscribeSubMsg then do
    let sub ← lift (srv.deref p)
    let topic ← lift (readString msg.topic.toList)
    let subscriptions ← lift (rmvSubscription sub.subscriptions topic)
    pure ({ srv with heap := srv.heap.set p { sub with subscriptions := subscriptions } }, pfdIdx)
  else if msg.type = subscribeSubMsg then do
    let sub ← lift (srv.deref p)
    let topic ← lift (readString msg.topic.toList)
    let subscriptions ← lift (addSubscription sub.subscriptions topic)
    pure ({ srv with heap := srv.heap.set p { sub with subscriptions := subscriptions } }, pfdIdx)
  else if msg.type = closeSubMsg then subClosesSrvConnection srv io p pfdIdx
  else pure (srv, pfdIdx)

/-- The number of received bytes is compared with -1 only: `msg` is what was on the stack, with
the received bytes written over its front. -/
def handleSubMsg (order : ByteOrder) (srv : Srv) (pfdIdx : ℕ) (msg : Incoming) : Action (Srv × ℕ) := do
  let pfd ← lift (defined srv.pfds[pfdIdx]?)
  let p ← lift (defined (htGet srv.subsByFd pfd.fd.toUInt32))
  let _ ← lift (srv.deref p)
  match msg.received with
  | none => halt (.die "recv() failed\n")
  | some got => executeSubMsg srv msg.io p pfdIdx (SubMsg.ofBytes order (msg.stack.overwrite got))

/-- `srv_closes_sub_connection` on the nodes of the list, from the head on. -/
def closeAll (io : Io) (srv : Srv) : List Ptr → Action Srv
  | [] => pure srv
  | p :: rest => do
    let sub ← lift (srv.deref p)
    let sockFd ← srvClosesSubConnection io sub.sockFd
    closeAll io { srv with heap := srv.heap.set p { sub with sockFd := sockFd } } rest

/-- `free_sub` on the nodes of the list, from the head on. -/
def freeSubs (io : Io) (srv : Srv) : List Ptr → Action Unit
  | [] => pure ()
  | p :: rest => do
    let sub ← lift (srv.deref p)
    if sub.sockFd ≠ -1 then do
      close io sub.sockFd
      freeSubs io srv rest
    else freeSubs io srv rest

def stopProgram (srv : Srv) (io : Io) : Action Srv := do
  let srv ← closeAll io srv srv.subs
  freeSubs io srv srv.subs
  close io srv.udpSockFd
  close io srv.tcpSockFd
  halt .exit

def executeExitCmd (srv : Srv) (io : Io) (arguments : List (List UInt8)) : Action Srv :=
  if arguments ≠ [] then do
    emit (.print (chars "Invalid arguments for command.\n"))
    pure srv
  else stopProgram srv io

/-- A line without NUL, as `getline` returns it; `none` when it returns -1. -/
def handleStdinMsg (srv : Srv) (io : Io) (line : Option (List UInt8)) : Action Srv :=
  match line with
  | none => halt (.die "getline() failed\n")
  | some line => match tokens line with
    | [] => do
      emit (.print (chars "Invalid command.\n"))
      pure srv
    | command :: arguments =>
      if command = chars "exit" then executeExitCmd srv io arguments
      else do
        emit (.print (chars "Invalid command.\n"))
        pure srv

/-- The index in `pfds` of a subscriber's entry. -/
def Srv.pfdIdx (srv : Srv) (fd : Int32) : Option ℕ := (srv.watched.idxOf? fd).map (· + 3)

/-- One handler call. `poll` reports monitored descriptors only. -/
def step (order : ByteOrder) (srv : Srv) : Event → Action Srv
  | .command io line => handleStdinMsg srv io line
  | .datagram dgram => do
    handleUdpMsg order srv dgram
    pure srv
  | .connection conn => handleListenTcpMsg order srv conn
  | .message fd msg => match srv.pfdIdx fd with
    | none => pure srv
    | some pfdIdx => do
      let (srv,_) ← handleSubMsg order srv pfdIdx msg
      pure srv

/-- The server after its initialisation, on a host with the given byte order. -/
def machine (order : ByteOrder) (udpSockFd tcpSockFd : Int32) : Runs.Machine Srv Event Halt Effect where
  init := initSrv udpSockFd tcpSockFd
  step := step order

end ClientServerApp.Server
