import ClientServerApp.Server.Reachable
import ClientServerApp.Matcher.Subscribed

/-! What `handle_udp_msg` sends: the relayed copy of a whole datagram, once to each connected client
whose trie accepts the topic. -/
namespace ClientServerApp.Server
open Traced TrieNode

section Copy
variable (order : ByteOrder) (addr : SockAddr)

lemma ntohl_load32 {l : List UInt8} (h : l.length = 4) : ntohl order (order.load32 l) = ByteOrder.big.load32 l := by
  rw [ntohl,order.store32_load32 h]

lemma ntohs_load16 {l : List UInt8} (h : l.length = 2) : ntohs order (order.load16 l) = ByteOrder.big.load16 l := by
  rw [ntohs,order.store16_load16 h]

/-- The length of the third `memcpy` for a datagram with a topic and a type. -/
lemma copyLength_toNat {n : ℕ} (h : maxTopicSize+1 ≤ n) (hn : n ≤ udpMsgSize) :
    (UInt64.ofNat n - UInt64.ofNat maxTopicSize - 1).toNat = n - (maxTopicSize+1) := by
  have := sizes
  have hlt : n < 18446744073709551616 := by omega
  simp only [UInt64.toNat_sub,UInt64.toNat_ofNat',UInt64.toNat_one]
  norm_num
  omega

/-- The relayed copy of a whole datagram: its type, topic and data, the last two filled up with
zeros, and the address of its sender. -/
structure IsRelayed (got : List UInt8) (msg : SrvMsg) : Prop where
  type_eq : got[maxTopicSize]? = some msg.type
  topic_eq : msg.topic.toList = got.take maxTopicSize ++ [0]
  data_eq : msg.data.toList = got.drop (maxTopicSize+1) ++ List.replicate (udpMsgSize + 1 - got.length) 0
  ip_eq : msg.providerIp = ByteOrder.big.load32 addr.sinAddr.toList
  port_eq : msg.providerPort = ByteOrder.big.load16 addr.sinPort.toList

theorem srvMsg_relayed (stack : Buffer udpMsgSize) {got : List UInt8} (h : maxTopicSize+1 ≤ got.length)
    (hgot : got.length ≤ udpMsgSize) : ∃ msg,
    srvMsg order addr (UdpMsg.ofBytes (stack.overwrite got)) got.length = .ok msg ∧ IsRelayed addr got msg := by
  have := sizes
  have hbuf := stack.overwrite_toList hgot
  have hcount := copyLength_toNat h hgot
  have htopic : ((stack.overwrite got).toList.drop 0).take maxTopicSize = got.take maxTopicSize := by
    rw [hbuf,List.drop_zero,List.take_append_of_le_length (by omega)]
  have hdata : (((stack.overwrite got).toList.drop (maxTopicSize+1)).take maxDataSize).take
      (got.length - (maxTopicSize+1)) = got.drop (maxTopicSize+1) := by
    have hmin : min (got.length - (maxTopicSize+1)) maxDataSize = got.length - (maxTopicSize+1) := by omega
    rw [hbuf,List.take_take,hmin,List.drop_append_of_le_length (by omega),
      List.take_append_of_le_length (by simp),List.take_of_length_le (by simp)]
  have hle : ¬ UInt64.ofNat maxDataSize < UInt64.ofNat got.length - UInt64.ofNat maxTopicSize - 1 := by
    rw [UInt64.lt_iff_toNat_lt,hcount]
    norm_num
    omega
  refine ⟨_,if_neg hle,?_,?_,?_,ntohl_load32 order addr.sinAddr.toList_length,
    ntohs_load16 order addr.sinPort.toList_length⟩
  · have hget : (stack.overwrite got).toList[maxTopicSize]? = got[maxTopicSize]? := by
      rw [hbuf,List.getElem?_append_left (by omega)]
    rw [← hget]
    exact List.getElem?_eq_getElem _
  · rw [Buffer.overwrite_toList _ (by simp)]
    change ((stack.overwrite got).toList.drop 0).take maxTopicSize ++ _ = _
    rw [htopic]
    simp
  · have hlen : (got.drop (maxTopicSize+1)).length ≤ maxDataSize+1 := by
      rw [List.length_drop]
      omega
    change (Buffer.overwrite _ ((((stack.overwrite got).toList.drop (maxTopicSize+1)).take maxDataSize).take
      _)).toList = _
    rw [hcount,hdata,Buffer.overwrite_toList _ hlen,Buffer.zeroed_toList,List.drop_replicate,List.length_drop]
    congr 2
    omega

lemma IsRelayed.readString_topic {got : List UInt8} {msg : SrvMsg} (h : IsRelayed addr got msg) :
    readString msg.topic.toList = .ok (cString (got.take maxTopicSize)) := by
  rw [h.topic_eq,readString_ok (by simp),cString_append_zero]

end Copy

/-- The client is connected and one of the patterns that match the topic is in its trie. -/
def Sub.wants (sub : Sub) (topic : List UInt8) : Bool :=
  sub.sockFd ≠ -1 && (patterns topic).any fun q => (sub.subscriptions.root.contentAt q).1

/-- The effects of one delivery. -/
def deliveries (heap : List Sub) (msg : SrvMsg) (topic : List UInt8) : List Effect :=
  (heap.reverse.filter fun sub => sub.wants topic).map fun sub => .send sub.sockFd msg

section Loop
variable {srv : Srv} {msg : SrvMsg} {topic : List UInt8} (hmsg : readString msg.topic.toList = .ok topic)
  (htopic : IsTopic topic)
include hmsg htopic

/-- One round of the loop. -/
lemma sendToSubscriber_eq {p : Ptr} {sub : Sub} (hp : srv.heap[p]? = some sub) :
    sendToSubscriber srv .ok msg p = ⟨if sub.wants topic then [.send sub.sockFd msg] else [],.ok ()⟩ := by
  rw [sendToSubscriber,Srv.deref,hp,defined_some,lift_ok_bind]
  by_cases hsock : sub.sockFd = -1
  · simp [hsock,Sub.wants,pure_eq]
  · rw [if_neg hsock,hmsg,lift_ok_bind,isSubscribed_topic _ htopic,lift_ok_bind]
    have hwants : sub.wants topic = (patterns topic).any fun q => (sub.subscriptions.root.contentAt q).1 := by
      simp [Sub.wants,hsock]
    rw [hwants]
    cases (patterns topic).any fun q => (sub.subscriptions.root.contentAt q).1 <;> rfl

/-- The loop sends to the clients in the order of the list. -/
theorem sendToSubscribers_eq (ps : List Ptr) (hps : ∀ p ∈ ps, p < srv.heap.length) :
    sendToSubscribers srv .ok msg ps =
      ⟨((ps.filterMap fun p => srv.heap[p]?).filter fun sub => sub.wants topic).map
        fun sub => .send sub.sockFd msg,.ok ()⟩ := by
  induction ps with
  | nil => rfl
  | cons p ps ih =>
    obtain ⟨sub,hp⟩ : ∃ sub, srv.heap[p]? = some sub := ⟨_,List.getElem?_eq_getElem (hps p (by simp))⟩
    rw [sendToSubscribers,sendToSubscriber_eq hmsg htopic hp,mk_ok_bind,ih fun q hq => hps q (by simp [hq]),
      List.filterMap_cons_some hp,List.filter_cons]
    by_cases hw : sub.wants topic <;> simp [hw]

end Loop

lemma filterMap_range_reverse {α : Type} (l : List α) :
    (List.range l.length).reverse.filterMap (fun p => l[p]?) = l.reverse := by
  have hrange : (List.range l.length).filterMap (fun p => l[p]?) = l := by
    induction l using List.reverseRecOn with
    | nil => rfl
    | append_singleton l x ih =>
      rw [List.length_append,List.length_singleton,List.range_succ,List.filterMap_append]
      have hinit : (List.range l.length).filterMap (fun p => (l ++ [x])[p]?) =
          (List.range l.length).filterMap (fun p => l[p]?) := by
        apply List.filterMap_congr
        intro p hp
        exact List.getElem?_append_left (List.mem_range.mp hp)
      rw [hinit,ih]
      simp
  rw [List.filterMap_reverse,hrange]

/-- What the handler does with a whole datagram when no call fails. -/
theorem step_datagram {u w : Int32} {srv : Srv} (h : srv.Sound u w) (order : ByteOrder) {dgram : Datagram}
    {got : List UInt8} (hio : dgram.io = .ok) (hgot : dgram.received = some got)
    (hge : maxTopicSize+1 ≤ got.length) (hle : got.length ≤ udpMsgSize)
    (htopic : IsTopic (cString (got.take maxTopicSize))) : ∃ msg, IsRelayed dgram.addr got msg ∧
    step order srv (.datagram dgram) = ⟨deliveries srv.heap msg (cString (got.take maxTopicSize)),.ok srv⟩ := by
  obtain ⟨msg,hmsg,hrelayed⟩ := srvMsg_relayed order dgram.addr dgram.stack hge hle
  refine ⟨msg,hrelayed,?_⟩
  have hps : ∀ p ∈ srv.subs, p < srv.heap.length := by
    intro p hp
    rw [h.subs_eq] at hp
    simpa using hp
  have hsent := sendToSubscribers_eq (hrelayed.readString_topic dgram.addr) htopic srv.subs hps
  rw [h.subs_eq,filterMap_range_reverse] at hsent
  rw [step,handleUdpMsg,hgot,hio]
  simp only [hmsg,lift_ok_bind]
  rw [h.subs_eq,hsent,mk_ok_bind,pure_out,pure_result,List.append_nil]
  rfl

/-- The connected clients have different descriptors. -/
lemma Registry.Coherent.pairwise_sockFd {r : Registry} (h : r.Coherent) :
    r.heap.Pairwise fun a b => a.sockFd = b.sockFd → a.sockFd = -1 := by
  rw [List.pairwise_iff_getElem]
  intro i j hi hj hij hsock
  by_contra hne
  have hbyFd := (h.byFd_iff r.heap[i].sockFd i).mpr ⟨hne,_,List.getElem?_eq_getElem hi,rfl⟩
  have hbyFd' := (h.byFd_iff r.heap[i].sockFd j).mpr ⟨hne,_,List.getElem?_eq_getElem hj,hsock.symm⟩
  have heq : i = j := Option.some_injective _ (hbyFd.symm.trans hbyFd')
  omega

/-- Connected clients have no descriptor twice. -/
lemma Registry.Coherent.sockFds_nodup {r : Registry} (h : r.Coherent) {f : Sub → Bool}
    (hf : ∀ sub, f sub = true → sub.sockFd ≠ -1) : ((r.heap.reverse.filter f).map Sub.sockFd).Nodup := by
  rw [List.Nodup,List.pairwise_map,List.pairwise_filter,List.pairwise_reverse]
  exact h.pairwise_sockFd.imp fun hab _ ha hsock => hf _ ha (hab hsock.symm)

section Deliveries
variable {r : Registry} (h : r.Coherent) (msg : SrvMsg) (topic : List UInt8)

lemma mem_deliveries {heap : List Sub} {e : Effect} : e ∈ deliveries heap msg topic ↔
    ∃ sub ∈ heap, sub.wants topic ∧ e = .send sub.sockFd msg := by
  simp only [deliveries,List.mem_map,List.mem_filter,List.mem_reverse,and_assoc]
  exact exists_congr fun sub => and_congr_right fun _ => and_congr_right fun _ => eq_comm

include h

/-- Nobody is sent the message twice. -/
theorem deliveries_nodup : (deliveries r.heap msg topic).Nodup := by
  have hfds := h.sockFds_nodup (f := (·.wants topic)) fun sub hsub => by
    rw [Sub.wants,Bool.and_eq_true] at hsub
    simpa using hsub.1
  have hsend : Function.Injective fun fd => Effect.send fd msg := by
    intro a b hab
    injection hab
  have hmap := hfds.map hsend
  rwa [List.map_map] at hmap

/-- Each connected client is sent the message once or not at all. -/
theorem count_deliveries {p : Ptr} {sub : Sub} (hp : r.heap[p]? = some sub) (hlive : sub.sockFd ≠ -1) :
    (deliveries r.heap msg topic).count (.send sub.sockFd msg) = if sub.wants topic then 1 else 0 := by
  by_cases hw : sub.wants topic
  · rw [if_pos hw]
    exact List.count_eq_one_of_mem (deliveries_nodup h msg topic)
      ((mem_deliveries msg topic).mpr ⟨sub,List.mem_of_getElem? hp,hw,rfl⟩)
  · rw [if_neg hw,List.count_eq_zero]
    intro hmem
    obtain ⟨sub',hsub',hw',he⟩ := (mem_deliveries msg topic).mp hmem
    obtain ⟨q,hq⟩ := List.mem_iff_getElem?.mp hsub'
    have hsock : sub.sockFd = sub'.sockFd := by
      injection he
    have hbyFd := (h.byFd_iff sub.sockFd p).mpr ⟨hlive,sub,hp,rfl⟩
    have hbyFd' := (h.byFd_iff sub.sockFd q).mpr ⟨hlive,sub',hq,hsock.symm⟩
    cases hbyFd.symm.trans hbyFd'
    cases hp.symm.trans hq
    exact hw hw'

end Deliveries

end ClientServerApp.Server
