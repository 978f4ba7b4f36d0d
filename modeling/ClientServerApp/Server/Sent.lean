import ClientServerApp.Server.Delivery

/-! What the server sends: copies of datagrams, and messages that close a connection. -/
namespace ClientServerApp.Server
open Traced

/-- A message is sent to close a connection only. -/
def IsControl : Effect → Prop
  | .send _ msg => msg = closeMsg
  | _ => True

section Control
variable (srv : Srv) (io : Io)

lemma close_emits (fd : Int32) : Emits IsControl (close io fd) := by
  unfold close
  split_ifs
  · exact .halt _
  · exact .emit trivial

lemma send_emits (fd : Int32) : Emits IsControl (send io fd closeMsg) := by
  unfold send
  split_ifs
  · exact .halt _
  · exact .emit rfl

lemma srvClosesSubConnection_emits (sockFd : Int32) : Emits IsControl (srvClosesSubConnection io sockFd) := by
  unfold srvClosesSubConnection
  split_ifs
  · exact .bind (send_emits io sockFd) fun _ => .bind (close_emits io sockFd) fun _ => .pure _
  · exact .pure _

lemma closeAll_emits (ps : List Ptr) : Emits IsControl (closeAll io srv ps) := by
  induction ps generalizing srv with
  | nil => exact .pure _
  | cons p ps ih =>
    exact .bind (.lift _) fun sub => .bind (srvClosesSubConnection_emits io sub.sockFd) fun _ => ih _

lemma freeSubs_emits (ps : List Ptr) : Emits IsControl (freeSubs io srv ps) := by
  induction ps with
  | nil => exact .pure _
  | cons p ps ih =>
    refine .bind (.lift _) fun sub => ?_
    split_ifs
    · exact .bind (close_emits io sub.sockFd) fun _ => ih
    · exact ih

lemma stopProgram_emits : Emits IsControl (stopProgram srv io) :=
  .bind (closeAll_emits srv io srv.subs) fun srv => .bind (freeSubs_emits srv io srv.subs) fun _ =>
    .bind (close_emits io srv.udpSockFd) fun _ => .bind (close_emits io srv.tcpSockFd) fun _ => .halt _

lemma handleStdinMsg_emits (line : Option (List UInt8)) : Emits IsControl (handleStdinMsg srv io line) := by
  have hprint : ∀ text, Emits IsControl (do emit (.print text); pure srv : Action Srv) :=
    fun text => .bind (.emit trivial) fun _ => .pure _
  cases line with
  | none => exact .halt _
  | some line =>
    rw [handleStdinMsg]
    cases tokens line with
    | nil => exact hprint _
    | cons command arguments =>
      change Emits IsControl (if command = chars "exit" then executeExitCmd srv io arguments else _)
      unfold executeExitCmd
      split_ifs
      · exact hprint _
      · exact stopProgram_emits srv io
      · exact hprint _

variable (order : ByteOrder)

lemma addNewSub_emits (id : List UInt8) (fd : Int32) (addr : SockAddr) :
    Emits IsControl (addNewSub order srv id fd addr) :=
  .bind (.lift _) fun _ => .bind (.lift _) fun _ => .bind (.lift _) fun _ => .bind (.emit trivial) fun _ => .pure _

lemma reviveSubConnection_emits (p : Ptr) (fd : Int32) (addr : SockAddr) :
    Emits IsControl (reviveSubConnection order srv p fd addr) :=
  .bind (.lift _) fun _ => .bind (.lift _) fun _ => .bind (.lift _) fun _ => .bind (.emit trivial) fun _ => .pure _

lemma handleListenTcpMsg_emits (conn : Connection) : Emits IsControl (handleListenTcpMsg order srv conn) := by
  unfold handleListenTcpMsg
  split_ifs
  · exact .halt _
  · exact .bind (.emit trivial) fun _ => .halt _
  · refine .bind (.emit trivial) fun _ => ?_
    cases conn.received with
    | none => exact .halt _
    | some got =>
      refine .bind (.lift _) fun id => ?_
      split_ifs
      · refine .bind (.lift _) fun p => .bind (.lift _) fun oldSub => ?_
        split_ifs
        · exact reviveSubConnection_emits srv order p _ _
        · exact .bind (srvClosesSubConnection_emits conn.io conn.fd) fun _ => .bind (.emit trivial) fun _ => .pure _
      · exact addNewSub_emits srv order id _ _

lemma executeSubMsg_emits (p : Ptr) (pfdIdx : ℕ) (msg : SubMsg) :
    Emits IsControl (executeSubMsg srv io p pfdIdx msg) := by
  unfold executeSubMsg
  split_ifs
  · exact .bind (.lift _) fun _ => .bind (.lift _) fun _ => .bind (.lift _) fun _ => .pure _
  · exact .bind (.lift _) fun _ => .bind (.lift _) fun _ => .bind (.lift _) fun _ => .pure _
  · exact .bind (.lift _) fun sub => .bind (close_emits io sub.sockFd) fun _ => .bind (.lift _) fun _ =>
      .bind (.lift _) fun _ => .bind (.emit trivial) fun _ => .pure _
  · exact .pure _

lemma handleSubMsg_emits (pfdIdx : ℕ) (msg : Incoming) : Emits IsControl (handleSubMsg order srv pfdIdx msg) := by
  refine .bind (.lift _) fun _ => .bind (.lift _) fun p => .bind (.lift _) fun _ => ?_
  cases msg.received with
  | none => exact .halt _
  | some got => exact executeSubMsg_emits srv msg.io p pfdIdx _

lemma step_emits {e : Event} (h : ∀ dgram, e ≠ .datagram dgram) : Emits IsControl (step order srv e) := by
  cases e with
  | command io line => exact handleStdinMsg_emits srv io line
  | datagram dgram => exact absurd rfl (h dgram)
  | connection conn => exact handleListenTcpMsg_emits srv order conn
  | message fd msg =>
    simp only [step]
    cases srv.pfdIdx fd with
    | none => exact .pure _
    | some pfdIdx => exact .bind (handleSubMsg_emits srv order pfdIdx msg) fun _ => .pure _

end Control

section Unwanted
variable {srv : Srv} {io : Io} {msg : SrvMsg} {topic : List UInt8}

/-- The client is disconnected or not subscribed to the topic. -/
def Unwanted (srv : Srv) (topic : List UInt8) (p : Ptr) : Prop :=
  ∀ sub, srv.heap[p]? = some sub → sub.sockFd = -1 ∨ isSubscribed sub.subscriptions.root topic ≠ .ok true

/-- A message that no client wants is not sent. -/
lemma sendToSubscribers_unwanted (hmsg : readString msg.topic.toList = .ok topic) {ps : List Ptr}
    (h : ∀ p ∈ ps, Unwanted srv topic p) : Emits (fun _ => False) (sendToSubscribers srv io msg ps) := by
  have hone : ∀ p, Unwanted srv topic p → Emits (fun _ => False) (sendToSubscriber srv io msg p) := by
    intro p hp
    unfold sendToSubscriber Srv.deref
    cases hsub : srv.heap[p]? with
    | none => exact .halt _
    | some sub =>
      rw [defined_some,lift_ok_bind]
      split_ifs with hsock
      · exact .pure _
      · rw [hmsg,lift_ok_bind]
        cases hwanted : isSubscribed sub.subscriptions.root topic with
        | error e => exact .halt _
        | ok wanted =>
          cases wanted with
          | false => exact .pure _
          | true => exact absurd hwanted ((hp sub hsub).resolve_left hsock)
  induction ps with
  | nil => exact .pure _
  | cons p ps ih =>
    exact .bind (hone p (h p List.mem_cons_self)) fun _ => ih fun q hq => h q (List.mem_cons_of_mem _ hq)

end Unwanted

section Copies
variable (order : ByteOrder) (addr : SockAddr)

/-- A datagram without a topic and a type leads to a `memcpy` out of its buffer. -/
lemma srvMsg_short (udpMsg : UdpMsg) {n : ℕ} (h : n ≤ maxTopicSize) :
    srvMsg order addr udpMsg n = .error .undefined := by
  have := sizes
  have hcount : UInt64.ofNat maxDataSize < UInt64.ofNat n - UInt64.ofNat maxTopicSize - 1 := by
    have hlt : n < 18446744073709551616 := by omega
    rw [UInt64.lt_iff_toNat_lt]
    simp only [UInt64.toNat_sub,UInt64.toNat_ofNat',UInt64.toNat_one]
    norm_num
    omega
  exact if_pos hcount

/-- Only a datagram with a topic and a type is relayed. -/
lemma srvMsg_copy (stack : Buffer udpMsgSize) {got : List UInt8} (hle : got.length ≤ udpMsgSize) {msg : SrvMsg}
    (hmsg : srvMsg order addr (UdpMsg.ofBytes (stack.overwrite got)) got.length = .ok msg) :
    IsRelayed addr got msg := by
  by_cases hshort : got.length ≤ maxTopicSize
  · rw [srvMsg_short order addr _ hshort] at hmsg
    cases hmsg
  · obtain ⟨msg',hmsg',hrelayed⟩ := srvMsg_relayed order addr stack (by omega) hle
    cases hmsg'.symm.trans hmsg
    exact hrelayed

/-- Both strings of a copy end inside their fields. -/
lemma IsRelayed.terminated {got : List UInt8} {msg : SrvMsg} (h : IsRelayed addr got msg)
    (hle : got.length ≤ udpMsgSize) : msg.Terminated where
  topic := by simp [h.topic_eq]
  data := by
    rw [h.data_eq,List.mem_append,List.mem_replicate]
    refine .inr ⟨?_,rfl⟩
    omega

lemma closeMsg_terminated : closeMsg.Terminated := ⟨by decide +kernel,by decide +kernel⟩

end Copies

/-- The strings of every message that the server sends end inside their fields. -/
theorem step_sends_terminated (order : ByteOrder) (srv : Srv) {e : Event}
    (he : ∀ dgram got, e = .datagram dgram → dgram.received = some got → got.length ≤ udpMsgSize) :
    Emits (fun w => ∀ fd msg, w = .send fd msg → msg.Terminated) (step order srv e) := by
  have hcontrol : ∀ w, IsControl w → ∀ fd msg, w = .send fd msg → msg.Terminated := by
    rintro w hw fd msg rfl
    rw [show msg = closeMsg from hw]
    exact closeMsg_terminated
  cases e with
  | command io line => exact (step_emits srv order (by simp)).mono hcontrol
  | connection conn => exact (step_emits srv order (by simp)).mono hcontrol
  | message fd msg => exact (step_emits srv order (by simp)).mono hcontrol
  | datagram dgram =>
    refine .bind ?_ fun _ => .pure _
    cases hgot : dgram.received with
    | none =>
      simp only [handleUdpMsg,hgot]
      exact .halt _
    | some got =>
      refine (handleUdpMsg_emits order srv hgot).mono ?_
      rintro w ⟨fd,msg,rfl,hmsg⟩ fd' msg' heq
      cases heq
      have hle := he dgram got rfl hgot
      exact (srvMsg_copy order dgram.addr dgram.stack hle hmsg).terminated dgram.addr hle

end ClientServerApp.Server
