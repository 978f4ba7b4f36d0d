import ClientServerApp.Server.Operations

/-! What `poll` writes into the array is looked at by `main` only: the handlers do the same without it. -/
namespace ClientServerApp.Server
open Traced

def Pollfd.unpolled (pfd : Pollfd) : Pollfd := { pfd with revents := 0 }

/-- The server as if `poll` had found nothing. -/
def Srv.unpolled (srv : Srv) : Srv := { srv with pfds := srv.pfds.map Pollfd.unpolled }

section Arrays
variable (pfds : List Pollfd)

lemma writePfd_unpolled (i : ℕ) (pfd : Pollfd) : writePfd (pfds.map Pollfd.unpolled) i pfd.unpolled =
    (writePfd pfds i pfd).map (List.map Pollfd.unpolled) := by
  unfold writePfd
  rw [List.length_map]
  split_ifs
  · exact congrArg Except.ok List.map_set.symm
  · rfl

lemma defined_unpolled (i : ℕ) :
    defined (pfds.map Pollfd.unpolled)[i]? = (defined pfds[i]?).map Pollfd.unpolled := by
  rw [List.getElem?_map]
  cases pfds[i]? <;> rfl

lemma shiftPfds_unpolled (pfdIdx nfds : ℕ) : shiftPfds (pfds.map Pollfd.unpolled) pfdIdx nfds =
    (shiftPfds pfds pfdIdx nfds).map (List.map Pollfd.unpolled) := by
  unfold shiftPfds
  induction List.range' pfdIdx (nfds-1-pfdIdx) generalizing pfds with
  | nil => rfl
  | cons j js ih =>
    rw [List.foldlM_cons,List.foldlM_cons,defined_unpolled]
    cases defined pfds[j+1]? with
    | error e => rfl
    | ok pfd =>
      change writePfd _ j pfd.unpolled >>= _ = (writePfd pfds j pfd >>= _).map _
      rw [writePfd_unpolled]
      cases writePfd pfds j pfd with
      | error e => rfl
      | ok pfds' => exact ih pfds'

end Arrays

section Handlers
variable (order : ByteOrder) (srv : Srv)

/-- The array with space for one more entry. -/
def Srv.grown (srv : Srv) : Srv :=
  if srv.nfds = srv.maxNfds then { srv with maxNfds := 2*srv.maxNfds, pfds := srv.pfds ++ freshPfds srv.maxNfds }
  else srv

lemma grown_unpolled : srv.unpolled.grown = srv.grown.unpolled := by
  have hfresh : (freshPfds srv.maxNfds).map Pollfd.unpolled = freshPfds srv.maxNfds := by
    simp [freshPfds,Pollfd.unpolled]
  unfold Srv.grown
  by_cases hfull : srv.nfds = srv.maxNfds
  · rw [if_pos hfull]
    refine (if_pos hfull).trans ?_
    simp only [Srv.unpolled,List.map_append,hfresh]
  · rw [if_neg hfull]
    exact if_neg hfull

lemma addPfd_unpolled (fd : Int32) : addPfd srv.unpolled fd = (addPfd srv fd).map Srv.unpolled := by
  have hadd : ∀ s : Srv, addPfd s fd = writePfd s.grown.pfds s.grown.nfds ⟨fd,pollin,0⟩ >>= fun pfds =>
    .ok { s.grown with pfds := pfds, nfds := s.grown.nfds+1 } := fun _ => rfl
  rw [hadd,hadd,grown_unpolled]
  have hwrite := writePfd_unpolled srv.grown.pfds srv.grown.nfds ⟨fd,pollin,0⟩
  change writePfd (srv.grown.pfds.map Pollfd.unpolled) srv.grown.nfds (Pollfd.unpolled ⟨fd,pollin,0⟩) >>= _ = _
  rw [hwrite]
  cases writePfd srv.grown.pfds srv.grown.nfds ⟨fd,pollin,0⟩ <;> rfl

lemma addNewSub_unpolled (id : List UInt8) (fd : Int32) (addr : SockAddr) :
    addNewSub order srv.unpolled id fd addr = (addNewSub order srv id fd addr).map Srv.unpolled := by
  simp only [addNewSub,addPfd_unpolled,lift_map_bind,map_bind]
  rfl

lemma reviveSubConnection_unpolled (p : Ptr) (fd : Int32) (addr : SockAddr) :
    reviveSubConnection order srv.unpolled p fd addr =
      (reviveSubConnection order srv p fd addr).map Srv.unpolled := by
  have hadd := fun sub : Sub => addPfd_unpolled { srv with heap := srv.heap.set p { sub with sockFd := fd } } fd
  simp only [reviveSubConnection,map_bind]
  change (lift (srv.deref p) >>= fun sub => lift (addPfd
    (Srv.unpolled { srv with heap := srv.heap.set p { sub with sockFd := fd } }) fd) >>= _) = _
  simp only [hadd,lift_map_bind]
  rfl

lemma handleListenTcpMsg_unpolled (conn : Connection) :
    handleListenTcpMsg order srv.unpolled conn = (handleListenTcpMsg order srv conn).map Srv.unpolled := by
  unfold handleListenTcpMsg
  split_ifs
  · rfl
  · rw [map_bind]
    rfl
  · rw [map_bind]
    congr 1
    funext _
    cases conn.received with
    | none => rfl
    | some got =>
      simp only [map_bind]
      congr 1
      funext id
      change (if htHasKey srv.subsById id then _ else _) = _
      split_ifs
      · rw [map_bind]
        change lift (defined (htGet srv.subsById id)) >>= _ = _
        congr 1
        funext p
        rw [map_bind]
        change lift (srv.deref p) >>= _ = _
        congr 1
        funext sub
        split_ifs
        · exact reviveSubConnection_unpolled order srv p conn.fd conn.addr
        · rw [map_bind]
          rfl
      · exact addNewSub_unpolled order srv id conn.fd conn.addr

lemma sendToSubscribers_unpolled (io : Io) (msg : SrvMsg) (ps : List Ptr) :
    sendToSubscribers srv.unpolled io msg ps = sendToSubscribers srv io msg ps := by
  induction ps with
  | nil => rfl
  | cons p ps ih =>
    rw [sendToSubscribers,sendToSubscribers,ih]
    rfl

lemma handleUdpMsg_unpolled (dgram : Datagram) :
    handleUdpMsg order srv.unpolled dgram = handleUdpMsg order srv dgram := by
  unfold handleUdpMsg
  simp only [sendToSubscribers_unpolled]
  rfl

lemma closeAll_unpolled (io : Io) (ps : List Ptr) :
    closeAll io srv.unpolled ps = (closeAll io srv ps).map Srv.unpolled := by
  induction ps generalizing srv with
  | nil => rfl
  | cons p ps ih =>
    simp only [closeAll,map_bind]
    change lift (srv.deref p) >>= _ = _
    congr 1
    funext sub
    congr 1
    funext sockFd
    exact ih { srv with heap := srv.heap.set p { sub with sockFd := sockFd } }

lemma freeSubs_unpolled (io : Io) (ps : List Ptr) : freeSubs io srv.unpolled ps = freeSubs io srv ps := by
  induction ps with
  | nil => rfl
  | cons p ps ih =>
    simp only [freeSubs,ih]
    rfl

lemma stopProgram_unpolled (io : Io) : stopProgram srv.unpolled io = (stopProgram srv io).map Srv.unpolled := by
  simp only [stopProgram,map_bind]
  change closeAll io srv.unpolled srv.subs >>= _ = _
  rw [closeAll_unpolled,bind_map]
  simp only [freeSubs_unpolled]
  rfl

lemma handleStdinMsg_unpolled (io : Io) (line : Option (List UInt8)) :
    handleStdinMsg srv.unpolled io line = (handleStdinMsg srv io line).map Srv.unpolled := by
  unfold handleStdinMsg
  cases line with
  | none => rfl
  | some line =>
    simp only [executeExitCmd]
    generalize tokens line = words
    cases words with
    | nil => rfl
    | cons command arguments =>
      simp only
      split_ifs
      · rfl
      · exact stopProgram_unpolled srv io
      · rfl

lemma subClosesSrvConnection_unpolled (io : Io) (p : Ptr) (pfdIdx : ℕ) :
    subClosesSrvConnection srv.unpolled io p pfdIdx =
      (subClosesSrvConnection srv io p pfdIdx).map (Prod.map Srv.unpolled id) := by
  simp only [subClosesSrvConnection,map_bind]
  change lift (srv.deref p) >>= _ = _
  congr 1
  funext sub
  congr 1
  funext _
  change lift (defined (srv.pfds.map Pollfd.unpolled)[pfdIdx]?) >>= _ = _
  rw [defined_unpolled,lift_map_bind]
  congr 1
  funext pfd
  change lift (shiftPfds (srv.pfds.map Pollfd.unpolled) pfdIdx srv.nfds) >>= _ = _
  rw [shiftPfds_unpolled,lift_map_bind]
  rfl

lemma executeSubMsg_unpolled (io : Io) (p : Ptr) (pfdIdx : ℕ) (msg : SubMsg) :
    executeSubMsg srv.unpolled io p pfdIdx msg =
      (executeSubMsg srv io p pfdIdx msg).map (Prod.map Srv.unpolled id) := by
  unfold executeSubMsg
  split_ifs
  · simp only [map_bind]
    rfl
  · simp only [map_bind]
    rfl
  · exact subClosesSrvConnection_unpolled srv io p pfdIdx
  · rfl

lemma handleSubMsg_unpolled (pfdIdx : ℕ) (msg : Incoming) :
    handleSubMsg order srv.unpolled pfdIdx msg =
      (handleSubMsg order srv pfdIdx msg).map (Prod.map Srv.unpolled id) := by
  simp only [handleSubMsg,map_bind]
  change lift (defined (srv.pfds.map Pollfd.unpolled)[pfdIdx]?) >>= _ = _
  rw [defined_unpolled,lift_map_bind]
  congr 1
  funext pfd
  change lift (defined (htGet srv.subsByFd pfd.fd.toUInt32)) >>= _ = _
  congr 1
  funext p
  change lift (srv.deref p) >>= _ = _
  congr 1
  funext _
  cases msg.received with
  | none => rfl
  | some got => exact executeSubMsg_unpolled srv msg.io p pfdIdx _

lemma watched_unpolled : srv.unpolled.watched = srv.watched := by
  simp only [Srv.watched,Srv.unpolled,List.map_drop,List.map_take,List.map_map]
  rfl

/-- A handler call does the same without what `poll` wrote, and leaves the same. -/
theorem step_unpolled (e : Event) : step order srv.unpolled e = (step order srv e).map Srv.unpolled := by
  cases e with
  | command io line => exact handleStdinMsg_unpolled srv io line
  | datagram dgram =>
    simp only [step,handleUdpMsg_unpolled,map_bind]
    rfl
  | connection conn => exact handleListenTcpMsg_unpolled order srv conn
  | message fd msg =>
    simp only [step,Srv.pfdIdx,watched_unpolled]
    cases (srv.watched.idxOf? fd).map (· + 3) with
    | none => rfl
    | some pfdIdx =>
      simp only [handleSubMsg_unpolled,bind_map,map_bind]
      rfl

/-- The same for any sequence of handler calls. -/
theorem steps_unpolled (u w : Int32) (es : List Event) : (machine order u w).steps srv.unpolled es =
    ((machine order u w).steps srv es).map Srv.unpolled := by
  induction es generalizing srv with
  | nil => rfl
  | cons e es ih =>
    rw [Runs.steps_cons,Runs.steps_cons,map_bind]
    change step order srv.unpolled e >>= _ = _
    rw [step_unpolled,bind_map]
    simp only [ih]
    rfl

end Handlers

end ClientServerApp.Server
