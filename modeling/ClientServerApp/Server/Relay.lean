import ClientServerApp.Server.Sent

/-! What of a datagram gets into the relayed message, over all lengths and whatever was on the stack. -/
namespace ClientServerApp.Server
open Traced

/-- The length of the third `memcpy` of `handle_udp_msg`. -/
def copyLength (recvBytes : ℕ) : UInt64 := UInt64.ofNat recvBytes - UInt64.ofNat maxTopicSize - 1

lemma srvMsg_isOk_iff (order : ByteOrder) (addr : SockAddr) (udpMsg : UdpMsg) (recvBytes : ℕ) :
    (∃ msg, srvMsg order addr udpMsg recvBytes = .ok msg) ↔ (copyLength recvBytes).toNat ≤ maxDataSize := by
  have hleaves : UInt64.ofNat maxDataSize < copyLength recvBytes ↔ ¬ (copyLength recvBytes).toNat ≤ maxDataSize := by
    rw [UInt64.lt_iff_toNat_lt,not_le]
    exact Iff.rfl
  constructor
  · rintro ⟨msg,hmsg⟩
    by_contra h
    cases (if_pos (hleaves.mpr h)).symm.trans hmsg
  · intro h
    exact ⟨_,if_neg fun hlt => hleaves.mp hlt h⟩

lemma IsRelayed.unique {addr : SockAddr} {got : List UInt8} {msg msg' : SrvMsg} (h : IsRelayed addr got msg)
    (h' : IsRelayed addr got msg') : msg = msg' := by
  apply SrvMsg.ext
  · exact Option.some.inj (h.type_eq.symm.trans h'.type_eq)
  · rw [h.ip_eq,h'.ip_eq]
  · rw [h.port_eq,h'.port_eq]
  · apply List.Vector.eq
    rw [h.topic_eq,h'.topic_eq]
  · apply List.Vector.eq
    rw [h.data_eq,h'.data_eq]

def relay (order : ByteOrder) (srv : Srv) (addr : SockAddr) (got : List UInt8) (io : Io)
    (stack : Buffer udpMsgSize) : Action Unit := handleUdpMsg order srv ⟨addr,stack,some got,io⟩

structure RelaysFaithfully (order : ByteOrder) (srv : Srv) (addr : SockAddr) (got : List UInt8)
    (io : Io) : Prop where
  /-- The payload is copied, and no more. -/
  bounded : (copyLength got.length).toNat ≤ maxDataSize ∧
    ((copyLength got.length).toNat : ℤ) = got.length - maxTopicSize - 1
  /-- The message is made of the received bytes alone, and no other one is sent. -/
  copied : maxTopicSize+1 ≤ got.length → ∃ msg, IsRelayed addr got msg ∧ msg.Terminated ∧ ∀ stack,
    srvMsg order addr (UdpMsg.ofBytes (stack.overwrite got)) got.length = .ok msg ∧
      Emits (fun e => ∃ fd, e = .send fd msg) (relay order srv addr got io stack)
  /-- Without a whole topic and a type the server goes on, and the rest of the buffer is not used. -/
  short (stack stack' : Buffer udpMsgSize) : got.length ≤ maxTopicSize →
    (relay order srv addr got io stack).result = .ok () ∧
      relay order srv addr got io stack = relay order srv addr got io stack'

section Lengths
variable (order : ByteOrder) (srv : Srv) (addr : SockAddr) {got : List UInt8} (io : Io)

lemma srvMsg_copied (hlong : maxTopicSize+1 ≤ got.length) (hgot : got.length ≤ udpMsgSize) :
    ∃ msg, IsRelayed addr got msg ∧
      ∀ stack : Buffer udpMsgSize,
        srvMsg order addr (UdpMsg.ofBytes (stack.overwrite got)) got.length = .ok msg := by
  obtain ⟨msg,-,hrelayed⟩ := srvMsg_relayed order addr (Buffer.zeroed _) hlong hgot
  refine ⟨msg,hrelayed,fun stack => ?_⟩
  obtain ⟨msg',hmsg,hrelayed'⟩ := srvMsg_relayed order addr stack hlong hgot
  rw [hrelayed.unique hrelayed',hmsg]

lemma relay_short (hshort : got.length ≤ maxTopicSize) (stack : Buffer udpMsgSize) :
    relay order srv addr got io stack = halt .undefined := by
  rw [relay]
  simp only [handleUdpMsg]
  rw [srvMsg_short order addr _ hshort,lift_error_bind]

/-- Relaying is faithful exactly for the datagrams that carry a whole topic and a type. -/
theorem relaysFaithfully_iff (hgot : got.length ≤ udpMsgSize) :
    RelaysFaithfully order srv addr got io ↔ maxTopicSize+1 ≤ got.length := by
  constructor
  · intro h
    by_contra hshort
    have hrun := (h.short (Buffer.zeroed _) (Buffer.zeroed _) (by omega)).1
    rw [relay_short order srv addr io (by omega)] at hrun
    cases hrun
  · intro hlong
    have := sizes
    have hcount : (copyLength got.length).toNat = got.length - (maxTopicSize+1) := copyLength_toNat hlong hgot
    obtain ⟨msg,hrelayed,hmsg⟩ := srvMsg_copied order addr hlong hgot
    have hbound := (srvMsg_isOk_iff order addr _ got.length).mp ⟨msg,hmsg (Buffer.zeroed _)⟩
    refine ⟨⟨hbound,by omega⟩,fun _ => ⟨msg,hrelayed,hrelayed.terminated addr hgot,fun stack => ?_⟩,?_⟩
    · refine ⟨hmsg stack,?_⟩
      rw [relay]
      simp only [handleUdpMsg]
      rw [hmsg,lift_ok_bind]
      exact sendToSubscribers_emits srv.subs
    · intro stack stack' hshort
      omega

end Lengths

/-- A datagram of 51 bytes: a topic, a type and no data. -/
theorem relaysFaithfully_shortest : RelaysFaithfully .little (initSrv 3 4) ⟨Buffer.zeroed 4,Buffer.zeroed 2⟩
    (List.replicate 51 65) .ok :=
  (relaysFaithfully_iff _ _ _ _ (by decide)).mpr (by decide)

/-- For an empty datagram the copy length is 2^64 - 51. -/
theorem relay_empty_undefined : (copyLength ([] : List UInt8).length).toNat = 2^64 - 51 ∧
    relay .little (initSrv 3 4) ⟨Buffer.zeroed 4,Buffer.zeroed 2⟩ [] .ok (Buffer.zeroed _) = halt .undefined ∧
    ¬ RelaysFaithfully .little (initSrv 3 4) ⟨Buffer.zeroed 4,Buffer.zeroed 2⟩ [] .ok := by
  have hempty : ([] : List UInt8).length ≤ maxTopicSize := Nat.zero_le _
  have hrun := relay_short .little (initSrv 3 4) ⟨Buffer.zeroed 4,Buffer.zeroed 2⟩ .ok hempty (Buffer.zeroed _)
  refine ⟨by decide,hrun,fun h => ?_⟩
  have hok := (h.short (Buffer.zeroed _) (Buffer.zeroed _) hempty).1
  rw [hrun] at hok
  cases hok

end ClientServerApp.Server
