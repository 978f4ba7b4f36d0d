import ClientServerApp.Server.Sent
import ClientServerApp.Server.Sessions
import ClientServerApp.Subscriber.Framing

/-! The byte stream from the server to a subscriber. -/
namespace ClientServerApp.Network
open Framing
open Server (Admissible Effect)

/-- Some step of the server sends the message on the connection. -/
def MaySend (order : ByteOrder) (fd : Int32) (msg : SrvMsg) : Prop := ∃ base t srv e,
  Admissible base t e ∧ Effect.send fd msg ∈ (Server.step order srv e).out

variable {order : ByteOrder} {fd : Int32} {msg : SrvMsg}

lemma MaySend.terminated (h : MaySend order fd msg) : msg.Terminated := by
  obtain ⟨base,t,srv,e,ha,hmem⟩ := h
  refine Server.step_sends_terminated order srv ?_ _ hmem fd msg rfl
  rintro dgram got rfl hgot
  exact ha got hgot

/-- Framing towards the subscriber: whatever its buffer holds before each `recv`, the subscriber processes
exactly the messages that the server sends on the connection if and only if every `recv` returns a whole
message, and none before the last ends the subscriber. -/
theorem serverMsgs_delivered_iff (sub : Subscriber.Sub) {msgs : List SrvMsg} {chunks : List (List UInt8)}
    (hsent : ∀ m ∈ msgs, MaySend order fd m)
    (hcut : Cut srvMsgSize (msgs.flatMap (SrvMsg.bytes order)) chunks) :
    Subscriber.Delivers order sub chunks msgs ↔
      (∀ chunk ∈ chunks, chunk.length = srvMsgSize) ∧ ∀ m ∈ msgs.dropLast, Subscriber.Printable m :=
  Subscriber.delivers_iff hcut fun m hm => (hsent m hm).terminated

/-- The copy that the server sends to client `c` of a string published on `a/b`. -/
lemma exists_maySend : ∃ msg,
    Server.IsRelayed ⟨Buffer.zeroed 4,Buffer.zeroed 2⟩ Server.helloBytes msg ∧ MaySend .little 5 msg := by
  obtain ⟨t,srv,run⟩ := Server.exists_subscribed_run
  obtain ⟨msg,hmsg,hstep⟩ := Server.subscribed_relays run stringSrvMsg
    (by decide : (chars "hello").length ≤ maxDataSize)
  have hsend : Effect.send 5 msg ∈ (Server.step .little srv (.datagram Server.helloDatagram)).out := by
    rw [Server.helloDatagram,Server.helloBytes,hstep]
    exact List.mem_singleton_self _
  refine ⟨msg,hmsg,∅,[],srv,_,?_,hsend⟩
  intro got hgot
  cases hgot
  decide +kernel

/-- Sent twice, that copy is processed twice. -/
theorem serverMsgs_delivered_string : ∃ msg, MaySend .little 5 msg ∧
    Subscriber.Delivers .little ⟨7,chars "c"⟩ [msg.bytes .little,msg.bytes .little] [msg,msg] := by
  obtain ⟨msg,hmsg,hsend⟩ := exists_maySend
  have htype : msg.type = stringSrvMsg := (Option.some.inj (hmsg.type_eq.symm.trans (by decide +kernel)))
  have hprintable : Subscriber.Printable msg := by
    constructor
    · rw [htype]
      decide
    · rw [htype]
      exact fun habs => absurd habs (by decide)
  have hcut : Cut srvMsgSize ([msg,msg].flatMap (SrvMsg.bytes .little)) [msg.bytes .little,msg.bytes .little] := by
    refine ⟨by simp,?_,?_⟩ <;> simp
  exact ⟨msg,hsend,(serverMsgs_delivered_iff ⟨7,chars "c"⟩ (by simpa using hsend) hcut).mpr
    ⟨by simp,by simpa using hprintable⟩⟩

/-- When the first `recv` returns the first byte of that message only, another message is processed. -/
theorem serverMsgs_split_lost : ∃ msg chunks,
    Server.IsRelayed ⟨Buffer.zeroed 4,Buffer.zeroed 2⟩ Server.helloBytes msg ∧ MaySend .little 5 msg ∧
    Cut srvMsgSize ([msg].flatMap (SrvMsg.bytes .little)) chunks ∧
      ¬ Subscriber.Delivers .little ⟨7,chars "c"⟩ chunks [msg] := by
  obtain ⟨msg,hmsg,hsend⟩ := exists_maySend
  have := sizes
  have hlen := msg.bytes_length .little
  have hfirst : ((msg.bytes .little).take 1).length = 1 := by
    rw [List.length_take]
    omega
  have hsecond : ((msg.bytes .little).drop 1).length = 1558 := by
    rw [List.length_drop]
    omega
  refine ⟨msg,[(msg.bytes .little).take 1,(msg.bytes .little).drop 1],hmsg,hsend,⟨?_,?_,?_⟩,fun h => ?_⟩
  · simp only [List.flatten_cons,List.flatten_nil,List.append_nil,List.take_append_drop,List.flatMap_cons,
      List.flatMap_nil]
  · intro piece hp
    rcases List.mem_pair.mp hp with rfl | rfl
    · omega
    · omega
  · intro piece hp
    rcases List.mem_pair.mp hp with rfl | rfl
    · omega
    · omega
  · have hwhole := h.length_eq (by omega)
    omega

end ClientServerApp.Network
