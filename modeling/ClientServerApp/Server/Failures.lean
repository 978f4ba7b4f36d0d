import ClientServerApp.Server.Sent
import ClientServerApp.Server.Sessions
import Mathlib.Data.FinEnum

/-! What becomes of a datagram and of a message when calls of `send` and `recv` fail. -/
namespace ClientServerApp.Server
open Traced Runs

/-- The sends that do not fail; no other effect of relaying can. -/
def Io.sendable (io : Io) : Effect → Bool
  | .send fd _ => fd ∉ io.sendFails
  | _ => true

/-- How a failed `send` ends the server. -/
def sendFailed : Halt := .die "send() failed\n"

/-- The computation with the failures of `send`: the first one stops it. -/
abbrev withFailures {α : Type} (io : Io) (x : Action α) : Action α := refuse io.sendable sendFailed x

section Refused
variable (srv : Srv) (io : Io) (msg : SrvMsg)

lemma send_eq_withFailures (fd : Int32) : send io fd msg = withFailures io (send .ok fd msg) := by
  have hok : send .ok fd msg = emit (.send fd msg) := if_neg (by simp [Io.ok])
  rw [hok,withFailures,refuse_emit,send]
  by_cases hfd : fd ∈ io.sendFails <;> simp [Io.sendable,sendFailed,hfd]

lemma sendToSubscriber_eq_withFailures (p : Ptr) :
    sendToSubscriber srv io msg p = withFailures io (sendToSubscriber srv .ok msg p) := by
  unfold sendToSubscriber
  rw [withFailures,refuse_bind,refuse_lift]
  congr 1
  funext sub
  split_ifs
  · rw [refuse_pure]
  · rw [refuse_bind,refuse_lift]
    congr 1
    funext topic
    rw [refuse_bind,refuse_lift]
    congr 1
    funext wanted
    split_ifs
    · exact send_eq_withFailures io msg sub.sockFd
    · rw [refuse_pure]

lemma sendToSubscribers_eq_withFailures (ps : List Ptr) :
    sendToSubscribers srv io msg ps = withFailures io (sendToSubscribers srv .ok msg ps) := by
  induction ps with
  | nil => exact (refuse_pure io.sendable sendFailed ()).symm
  | cons p ps ih =>
    rw [sendToSubscribers,sendToSubscribers,withFailures,refuse_bind,sendToSubscriber_eq_withFailures]
    congr 1
    funext _
    exact ih

/-- A datagram handled with failures is the datagram handled without them, up to the first one. -/
theorem step_eq_withFailures (order : ByteOrder) (dgram : Datagram) :
    step order srv (.datagram { dgram with io := io }) =
      withFailures io (step order srv (.datagram { dgram with io := .ok })) := by
  have hudp : handleUdpMsg order srv { dgram with io := io } =
      withFailures io (handleUdpMsg order srv { dgram with io := .ok }) := by
    cases dgram.received with
    | none =>
      simp only [handleUdpMsg]
      exact (refuse_halt io.sendable sendFailed _).symm
    | some got =>
      simp only [handleUdpMsg]
      rw [withFailures,refuse_bind,refuse_lift]
      congr 1
      funext msg
      exact sendToSubscribers_eq_withFailures srv io msg srv.subs
  rw [step,step,withFailures,refuse_bind,hudp]
  congr 1

end Refused

/-- Sends to several descriptors, with failures. -/
lemma withFailures_sends (io : Io) (msg : SrvMsg) (fds : List Int32) (srv : Srv) :
    withFailures io ⟨fds.map (.send · msg),.ok srv⟩ = ⟨(fds.takeWhile (· ∉ io.sendFails)).map (.send · msg),
      if ∀ fd ∈ fds, fd ∉ io.sendFails then .ok srv else .error sendFailed⟩ := by
  have hsendable : io.sendable ∘ (fun fd => Effect.send fd msg) = fun fd => decide (fd ∉ io.sendFails) := rfl
  by_cases hall : ∀ fd ∈ fds, fd ∉ io.sendFails
  · have hself : fds.takeWhile (· ∉ io.sendFails) = fds := by
      rw [List.takeWhile_eq_self_iff]
      simpa using hall
    rw [if_pos hall,hself]
    apply refuse_of_all
    rw [List.all_map,hsendable]
    simpa using hall
  · rw [if_neg hall,← hsendable,← List.takeWhile_map]
    apply refuse_of_not_all
    rw [List.all_map,hsendable,Bool.eq_false_iff]
    simpa using hall

/-- The client is connected and `is_subscribed` accepts the topic on its trie. -/
def Sub.accepts (topic : List UInt8) (sub : Sub) : Bool :=
  sub.sockFd ≠ -1 && (isSubscribed sub.subscriptions.root topic).toOption == some true

/-- The descriptors that a message on the topic is for, in the order of the subscriber list. -/
def receivers (heap : List Sub) (topic : List UInt8) : List Int32 :=
  (heap.reverse.filter (Sub.accepts topic)).map Sub.sockFd

lemma Sub.accepts_iff {topic : List UInt8} {sub : Sub} : sub.accepts topic = true ↔
    sub.sockFd ≠ -1 ∧ isSubscribed sub.subscriptions.root topic = .ok true := by
  rw [Sub.accepts,Bool.and_eq_true,decide_eq_true_iff,beq_iff_eq]
  cases isSubscribed sub.subscriptions.root topic <;> simp [Except.toOption]

section Loop
variable {srv : Srv} {msg : SrvMsg} {topic : List UInt8} (hmsg : readString msg.topic.toList = .ok topic)
include hmsg

/-- One round of the loop that comes back. -/
lemma sendToSubscriber_ok {p : Ptr} {sub : Sub} (hp : srv.heap[p]? = some sub) {out : List Effect}
    (hrun : sendToSubscriber srv .ok msg p = ⟨out,.ok ()⟩) :
    out = if sub.accepts topic then [.send sub.sockFd msg] else [] := by
  rw [sendToSubscriber,Srv.deref,hp,defined_some,lift_ok_bind] at hrun
  by_cases hsock : sub.sockFd = -1
  · rw [if_pos hsock] at hrun
    cases hrun
    simp [Sub.accepts,hsock]
  · rw [if_neg hsock,hmsg,lift_ok_bind] at hrun
    obtain ⟨wanted,hwanted,hrun⟩ := lift_bind_eq_ok.mp hrun
    have haccepts : sub.accepts topic = wanted := by
      rw [Bool.eq_iff_iff,Sub.accepts_iff,hwanted,Except.ok.injEq]
      exact and_iff_right hsock
    rw [haccepts]
    cases wanted with
    | false =>
      cases hrun
      rfl
    | true =>
      have hsend : send .ok sub.sockFd msg = emit (.send sub.sockFd msg) := if_neg (by simp [Io.ok])
      rw [if_pos rfl,hsend] at hrun
      cases hrun
      rfl

/-- The loop, when it comes back, has sent to the clients that accept the topic. -/
lemma sendToSubscribers_ok {ps : List Ptr} (hps : ∀ p ∈ ps, p < srv.heap.length) {out : List Effect}
    (hrun : sendToSubscribers srv .ok msg ps = ⟨out,.ok ()⟩) :
    out = ((ps.filterMap fun p => srv.heap[p]?).filter (Sub.accepts topic)).map fun sub => .send sub.sockFd msg := by
  induction ps generalizing out with
  | nil =>
    cases hrun
    rfl
  | cons p ps ih =>
    obtain ⟨sub,hp⟩ : ∃ sub, srv.heap[p]? = some sub := ⟨_,List.getElem?_eq_getElem (hps p (by simp))⟩
    rw [sendToSubscribers] at hrun
    obtain ⟨o₁,_,o₂,hfirst,hrest,rfl⟩ := bind_eq_ok.mp hrun
    rw [sendToSubscriber_ok hmsg hp hfirst,ih (fun q hq => hps q (by simp [hq])) hrest,
      List.filterMap_cons_some hp,List.filter_cons]
    by_cases hw : sub.accepts topic <;> simp [hw]

end Loop

section Reachable
variable {u w : Int32} {t : List Effect} {srv : Srv} (h : Inv u w t srv)
include h

omit h in
lemma mem_receivers {topic : List UInt8} {fd : Int32} : fd ∈ receivers srv.heap topic ↔
    ∃ sub ∈ srv.heap, sub.sockFd = fd ∧ fd ≠ -1 ∧ isSubscribed sub.subscriptions.root topic = .ok true := by
  simp only [receivers,List.mem_map,List.mem_filter,List.mem_reverse,Sub.accepts_iff]
  constructor
  · rintro ⟨sub,⟨hmem,hne,hsub⟩,rfl⟩
    exact ⟨sub,hmem,rfl,hne,hsub⟩
  · rintro ⟨sub,hmem,rfl,hne,hsub⟩
    exact ⟨sub,⟨hmem,hne,hsub⟩,rfl⟩

/-- What a datagram that is handled when nothing fails makes the server send, in that case and with
failures. -/
theorem step_datagram_failures (order : ByteOrder) {dgram : Datagram} {got : List UInt8}
    (hgot : dgram.received = some got) (hle : got.length ≤ udpMsgSize) {out : List Effect} {srv' : Srv}
    (hrun : step order srv (.datagram { dgram with io := .ok }) = ⟨out,.ok srv'⟩) :
    ∃ msg, IsRelayed dgram.addr got msg ∧ ∀ io, step order srv (.datagram { dgram with io := io }) =
      ⟨((receivers srv.heap (cString (got.take maxTopicSize))).takeWhile (· ∉ io.sendFails)).map (.send · msg),
        if ∀ fd ∈ receivers srv.heap (cString (got.take maxTopicSize)), fd ∉ io.sendFails then .ok srv
        else .error sendFailed⟩ := by
  obtain ⟨o₁,_,o₂,hudp,hpure,rfl⟩ := bind_eq_ok.mp hrun
  cases hpure
  simp only [handleUdpMsg,hgot] at hudp
  obtain ⟨msg,hmsg,hsent⟩ := lift_bind_eq_ok.mp hudp
  have hrelayed := srvMsg_copy order dgram.addr dgram.stack hle hmsg
  have hout := sendToSubscribers_ok (hrelayed.readString_topic dgram.addr) (fun _ => h.sound.lt_of_mem_subs) hsent
  rw [h.sound.subs_eq,filterMap_range_reverse] at hout
  refine ⟨msg,hrelayed,fun io => ?_⟩
  have hsends : o₁ = (receivers srv.heap (cString (got.take maxTopicSize))).map (.send · msg) := by
    rw [hout,receivers,List.map_map]
    rfl
  rw [step_eq_withFailures,hrun,List.append_nil,hsends]
  exact withFailures_sends io msg _ srv

/-- A failing `recv` of a ready entry. -/
lemma step_message_failure (order : ByteOrder) {fd : Int32} (hfd : fd ∈ srv.watched) {msg : Incoming}
    (hnone : msg.received = none) : step order srv (.message fd msg) = halt (.die "recv() failed\n") := by
  obtain ⟨i,p,sub,hi,hidx,hbyFd,hp,-,-⟩ := h.entry hfd
  simp only [step,hidx]
  rw [handleSubMsg_eq order hi hbyFd hp,hnone,halt_bind]

end Reachable

/-- One bad connection: the failure of a `send` of a datagram or of the `recv` from a client stops the server. A
message is sent once to each connected client that accepts its topic, in the order of the list, up to the first
failure, and without one the server goes on with everything unchanged. A failing `recv` has no effect before it. -/
theorem failure_stops {u w : Int32} {order : ByteOrder} {es : List Event} {t : List Effect} {srv : Srv}
    (run : Run (machine order u w) (Admissible (baseFds u w)) es t srv) :
    (∀ (dgram : Datagram) got out srv', dgram.received = some got → got.length ≤ udpMsgSize →
      step order srv (.datagram { dgram with io := .ok }) = ⟨out,.ok srv'⟩ →
      ∃ (msg : SrvMsg) (fds : List Int32), IsRelayed dgram.addr got msg ∧
        fds = receivers srv.heap (cString (got.take maxTopicSize)) ∧ fds.Nodup ∧
        (∀ fd, fd ∈ fds ↔ ∃ sub ∈ srv.heap, sub.sockFd = fd ∧ fd ≠ -1 ∧
          isSubscribed sub.subscriptions.root (cString (got.take maxTopicSize)) = .ok true) ∧
        ∀ io : Io, step order srv (.datagram { dgram with io := io }) =
          ⟨(fds.takeWhile (· ∉ io.sendFails)).map (.send · msg),
            if ∀ fd ∈ fds, fd ∉ io.sendFails then .ok srv else .error (.die "send() failed\n")⟩) ∧
    ∀ fd ∈ srv.watched, ∀ msg : Incoming, msg.received = none →
      step order srv (.message fd msg) = ⟨[],.error (.die "recv() failed\n")⟩ := by
  have h := reachable_inv run
  constructor
  · intro dgram got out srv' hgot hle hrun
    obtain ⟨msg,hrelayed,hfail⟩ := step_datagram_failures h order hgot hle hrun
    refine ⟨msg,_,hrelayed,rfl,?_,fun fd => mem_receivers,hfail⟩
    exact h.coherent.sockFds_nodup fun sub hsub => (Sub.accepts_iff.mp hsub).1
  · exact fun fd hfd msg hnone => step_message_failure h order hfd hnone

/-- The three clients all accept `a/b`, and without a failure that datagram is sent to all. -/
lemma exists_hello_run : ∃ t srv, Run (machine .little 3 4) (Admissible (baseFds 3 4)) severalEvents t srv ∧
    srv.watched = [5,6,7] ∧ receivers srv.heap (chars "a/b") = [7,6,5] ∧
    ∃ out srv', step .little srv (.datagram helloDatagram) = ⟨out,.ok srv'⟩ := by
  obtain ⟨t,srv,run,hthree⟩ := @exists_orderly_run severalEvents
    (fun r => r.2.watched = [5,6,7] ∧ receivers r.2.heap (chars "a/b") = [7,6,5]) (by decide +kernel)
  obtain ⟨hwatched,hreceivers⟩ := of_decide_eq_true hthree
  have ho : Orderly .little (baseFds 3 4) t (.datagram helloDatagram) :=
    ⟨rfl,_,rfl,by decide +kernel,by decide +kernel,by decide +kernel⟩
  obtain ⟨out,srv',hstep,-⟩ := orderly_progress run ho
  exact ⟨t,srv,run.mono fun _ _ _ ho => ho.admissible,hwatched,hreceivers,out,srv',hstep⟩

/-- Of three sends the second fails. -/
lemma second_fails : ([7,6,5] : List Int32).takeWhile (· ∉ (⟨[6],[]⟩ : Io).sendFails) = [7] ∧
    ¬ ∀ fd ∈ ([7,6,5] : List Int32), fd ∉ (⟨[6],[]⟩ : Io).sendFails := by
  have hne : (7 : Int32) ≠ 6 := by decide
  constructor
  · simp [hne]
  · exact fun h => h 6 (by simp) (by simp)

/-- With the second of three sends or a `recv` failing. -/
theorem failure_stops_subscribed : ∃ t srv,
    Run (machine .little 3 4) (Admissible (baseFds 3 4)) severalEvents t srv ∧
    (∃ msg, step .little srv (.datagram { helloDatagram with io := ⟨[6],[]⟩ }) =
      ⟨[.send 7 msg],.error (.die "send() failed\n")⟩) ∧
    step .little srv (.message 5 ⟨Buffer.zeroed _,none,.ok⟩) = ⟨[],.error (.die "recv() failed\n")⟩ := by
  obtain ⟨t,srv,run,hwatched,hreceivers,out,srv',hstep⟩ := exists_hello_run
  obtain ⟨hsend,hrecv⟩ := failure_stops run
  obtain ⟨msg,fds,-,rfl,-,-,hfail⟩ := hsend helloDatagram _ out srv' rfl (by decide +kernel) hstep
  refine ⟨t,srv,run,⟨msg,?_⟩,hrecv 5 (by rw [hwatched]; decide) _ rfl⟩
  rw [hfail ⟨[6],[]⟩,helloBytes_topic,hreceivers,second_fails.1,if_neg second_fails.2]
  rfl

/-- Client `c` accepts the topic and its `send` would succeed, but the one to client `d` before it fails: it is sent
nothing, and the server stops. -/
theorem failure_ends_server : ∃ t srv,
    Run (machine .little 3 4) (Admissible (baseFds 3 4)) severalEvents t srv ∧
    5 ∈ receivers srv.heap (chars "a/b") ∧
    ∃ out, step .little srv (.datagram { helloDatagram with io := ⟨[6],[]⟩ }) =
      ⟨out,.error (.die "send() failed\n")⟩ ∧ ∀ msg, .send 5 msg ∉ out := by
  obtain ⟨t,srv,run,-,hreceivers,out,srv',hstep⟩ := exists_hello_run
  have hlen : helloBytes.length ≤ udpMsgSize := by decide +kernel
  obtain ⟨msg,-,hfail⟩ := @step_datagram_failures _ _ _ _ (reachable_inv run) .little helloDatagram helloBytes rfl
    hlen _ _ hstep
  refine ⟨t,srv,run,by rw [hreceivers]; decide,[.send 7 msg],?_,by simp⟩
  rw [hfail ⟨[6],[]⟩,helloBytes_topic,hreceivers,second_fails.1,if_neg second_fails.2]
  rfl

end ClientServerApp.Server
