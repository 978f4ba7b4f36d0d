import ClientServerApp.Server.Delivery

/-! In an orderly environment the server is the session table of its clients: every event is
handled, and it changes the table as the abstract event does. -/
namespace ClientServerApp.Server
open Traced Runs SessionTable

/-- What an orderly environment does: system calls succeed, ids and messages arrive whole in one `recv`, topics are
words over the alphabet, and no line is typed to the server. -/
def Orderly (order : ByteOrder) (base : Finset Int32) (t : List Effect) : Event → Prop
  | .command _ _ => False
  | .datagram dgram => dgram.io = .ok ∧ ∃ got, dgram.received = some got ∧ maxTopicSize+1 ≤ got.length ∧
      got.length ≤ udpMsgSize ∧ IsTopic (cString (got.take maxTopicSize))
  | .connection conn => conn.fd ≠ -1 ∧ conn.fd ∉ openFds base t ∧ conn.setsockoptFails = false ∧
      conn.io = .ok ∧ ∃ id, conn.received = some id ∧ id.length ≤ maxIdSize
  | .message _ msg => msg.io = .ok ∧ ∃ sent : SubMsg, msg.received = some (sent.bytes order) ∧
      (sent.type = subscribeSubMsg ∨ sent.type = unsubscribeSubMsg →
        0 ∈ sent.topic.toList ∧ IsTopic (cString sent.topic.toList))

def SubMsg.sessionEvent (fd : Int32) (msg : SubMsg) : SessionTable.Event (List UInt8) Int32 (List UInt8) :=
  if msg.type = unsubscribeSubMsg then .unsubscribe fd (cString msg.topic.toList)
  else if msg.type = subscribeSubMsg then .subscribe fd (cString msg.topic.toList)
  else if msg.type = closeSubMsg then .close fd
  else .idle

def Event.sessionEvent (order : ByteOrder) : Event → SessionTable.Event (List UInt8) Int32 (List UInt8)
  | .command _ _ => .idle
  | .datagram _ => .idle
  | .connection conn => .connect (cString (conn.received.getD [])) conn.fd
  | .message fd msg => match msg.received with
    | none => .idle
    | some got => SubMsg.sessionEvent fd (SubMsg.ofBytes order (msg.stack.overwrite got))

def tableAfter (order : ByteOrder) (es : List Event) : Table (List UInt8) Int32 (List UInt8) :=
  Table.after (es.map (Event.sessionEvent order))

lemma Orderly.admissible {order : ByteOrder} {base : Finset Int32} {t : List Effect} {e : Event}
    (h : Orderly order base t e) : Admissible base t e := by
  have := sizes
  cases e with
  | command io line => trivial
  | datagram dgram =>
    obtain ⟨-,got,hgot,-,hle,-⟩ := h
    intro got' hgot'
    cases hgot.symm.trans hgot'
    exact hle
  | connection conn =>
    obtain ⟨-,hnew,-,-,id,hid,hlen⟩ := h
    refine ⟨fun _ => hnew,fun got hgot => ?_⟩
    cases hid.symm.trans hgot
    omega
  | message fd msg =>
    obtain ⟨-,sent,hsent,-⟩ := h
    intro got hgot
    cases hsent.symm.trans hgot
    exact (sent.bytes_length order).le

lemma subMsg_whole (order : ByteOrder) (stack : Buffer subMsgSize) (sent : SubMsg) :
    SubMsg.ofBytes order (stack.overwrite (sent.bytes order)) = sent := by
  rw [stack.overwrite_full (sent.bytes_length order),sent.ofBytes_bytes]

section Topics
variable {trie : Trie topicAlphabet.length} (h : SubscriptionTrie trie) {topic : List UInt8}

include h

lemma rmvSubscription_topic (htopic : IsTopic topic) : ∃ trie', rmvSubscription trie topic = .ok trie' ∧
    SubscriptionTrie trie' ∧ ∀ k, trie'.Holds k ↔ k ≠ topic ∧ trie.Holds k := by
  obtain ⟨found,hsearch,hfound⟩ := h.valid.search htopic
  rw [rmvSubscription,hsearch]
  cases found with
  | none =>
    refine ⟨trie,rfl,h,fun k => ⟨fun hk => ⟨?_,hk⟩,And.right⟩⟩
    rintro rfl
    simpa using hfound.mpr hk
  | some value =>
    obtain ⟨trie',hrun,hvalid,hsize,hkeys⟩ := h.valid.remove topic
    exact ⟨trie',hrun,⟨hvalid,hsize.trans h.dataSize⟩,hkeys⟩

end Topics

/-- What a whole message from the client in block `p`, whose entry is the one at `i` behind the sockets, does to the
server and to the index. -/
inductive Executed (srv : Srv) (p : Ptr) (sub : Sub) (i : ℕ) (msg : SubMsg) : Srv → ℕ → Prop
  | unsubscribed {trie} (type : msg.type = unsubscribeSubMsg)
      (keys : ∀ k, trie.Holds k ↔ k ≠ cString msg.topic.toList ∧ sub.subscriptions.Holds k) :
      Executed srv p sub i msg { srv with heap := srv.heap.set p { sub with subscriptions := trie } } (i+3)
  | subscribed {trie} (type : msg.type = subscribeSubMsg)
      (keys : ∀ k, trie.Holds k ↔ k = cString msg.topic.toList ∨ sub.subscriptions.Holds k) :
      Executed srv p sub i msg { srv with heap := srv.heap.set p { sub with subscriptions := trie } } (i+3)
  | closed {srv'} (type : msg.type = closeSubMsg) (registry : srv'.registry = srv.registry.disconnect p sub)
      (entries : srv'.entries = srv.entries.eraseIdx i) : Executed srv p sub i msg srv' (i+2)
  | ignored (unsubscribe : msg.type ≠ unsubscribeSubMsg) (subscribe : msg.type ≠ subscribeSubMsg)
      (close : msg.type ≠ closeSubMsg) : Executed srv p sub i msg srv (i+3)

/-- A message that arrives whole, with a word over the alphabet where a topic is read, is executed. -/
theorem executeSubMsg_whole {u w : Int32} {t : List Effect} {srv : Srv} (h : Inv u w t srv) {p : Ptr} {sub : Sub}
    (hp : srv.heap[p]? = some sub) {i : ℕ} (hi : srv.watched[i]? = some sub.sockFd) {io : Io} (hio : io = .ok)
    {msg : SubMsg} (htopic : msg.type = subscribeSubMsg ∨ msg.type = unsubscribeSubMsg →
      0 ∈ msg.topic.toList ∧ IsTopic (cString msg.topic.toList)) :
    ∃ out srv' idx, executeSubMsg srv io p (i+3) msg = ⟨out,.ok (srv',idx)⟩ ∧ Executed srv p sub i msg srv' idx := by
  have htrie := h.coherent.trie (List.mem_of_getElem? hp)
  rcases msg.type_cases with hun | hsub | hclose | ⟨hun,hsub,hclose⟩
  · obtain ⟨hnul,hword⟩ := htopic (.inr hun)
    obtain ⟨trie,hrmv,-,hkeys⟩ := rmvSubscription_topic htrie hword
    refine ⟨[],_,_,?_,.unsubscribed hun hkeys⟩
    rw [executeSubMsg_unsubscribe hp io _ hun,readString_ok hnul,lift_ok_bind,hrmv,lift_ok_bind]
    rfl
  · obtain ⟨hnul,hword⟩ := htopic (.inl hsub)
    obtain ⟨trie,hadd,-,hkeys⟩ := addSubscription_topic htrie hword
    refine ⟨[],_,_,?_,.subscribed hsub hkeys⟩
    rw [executeSubMsg_subscribe hp io _ hsub,readString_ok hnul,lift_ok_bind,hadd,lift_ok_bind]
    rfl
  · obtain ⟨srv',hrun,-,hreg,hentries⟩ := subClosesSrvConnection_spec h.sound h.coherent hp hi
      (show sub.sockFd ∉ io.closeFails by simp [hio,Io.ok])
    exact ⟨_,srv',_,(executeSubMsg_close io _ hclose).trans hrun,.closed hclose hreg hentries⟩
  · exact ⟨[],srv,_,executeSubMsg_other io _ hun hsub hclose,.ignored hun hsub hclose⟩

section Step
variable {u w : Int32} {t : List Effect} {srv : Srv} (h : Inv u w t srv) (order : ByteOrder)
  (T : Table (List UInt8) Int32 (List UInt8))

/-- The state represents the table after the event, and the blocks of the other clients stay. -/
structure Follows (srv srv' : Srv) (T : Table (List UInt8) Int32 (List UInt8))
    (e : SessionTable.Event (List UInt8) Int32 (List UInt8)) : Prop where
  represents : srv'.registry.Represents (T.next e)
  frame (id : List UInt8) : ¬ T.Sender id e → srv'.registry.client id = srv.registry.client id

variable {T} (hT : srv.registry.Represents T)
include h hT

theorem connection_follows {conn : Connection} {got : List UInt8} (hconn : conn.Proceeds got)
    (hio : conn.io = .ok) :
    ∃ out srv', handleListenTcpMsg order srv conn = ⟨out,.ok srv'⟩ ∧
      Follows srv srv' T (.connect (cString got) conn.fd) := by
  obtain ⟨out,srv',hrun⟩ := h.connection_runs order hconn hio
  refine ⟨out,srv',hrun,?_⟩
  cases h.connection_transition hrun with
  | first hconn' hid _ hreg =>
    cases hconn.received_eq.symm.trans hconn'.received_eq
    have hclient : srv.registry.client (cString got) = none := by
      rw [Registry.client,hid]
      rfl
    refine ⟨?_,fun id hs => ?_⟩
    · rw [hreg]
      exact hT.add h.coherent hconn.fd_ne hclient (trieCreate_holds 1)
    · rw [hreg]
      exact (h.coherent.client_add _ id).trans (if_neg fun he => hs he.symm)
  | @again _ _ p srv' _ sub hconn' hp hsub hold _ hreg =>
    cases hconn.received_eq.symm.trans hconn'.received_eq
    refine ⟨?_,fun id hs => ?_⟩
    · rw [hreg,← hsub]
      exact hT.revive h.coherent hp hold hconn.fd_ne
    · rw [hreg]
      refine (h.coherent.client_set hp _ (srv.registry.revive p sub conn.fd) rfl rfl id).trans ?_
      exact if_neg fun he => hs (hsub.symm.trans he.symm)
  | refused hconn' hp hsub hold =>
    cases hconn.received_eq.symm.trans hconn'.received_eq
    refine ⟨?_,fun _ _ => rfl⟩
    rw [← hsub]
    exact hT.duplicate h.coherent hp hold conn.fd

section Message
variable {fd : Int32} {p : Ptr} {sub : Sub} (hfd : srv.registry.byFd fd = some p) (hp : srv.heap[p]? = some sub)
include hfd hp

lemma client_of_not_holds {r : Registry} (sub' : Sub) (hheap : r.heap = srv.heap.set p sub')
    (hbyId : r.byId = srv.registry.byId) {id : List UInt8} (hid : ¬ T.Holds id fd) :
    r.client id = srv.registry.client id := by
  refine (h.coherent.client_set hp sub' r hheap hbyId id).trans (if_neg ?_)
  rintro rfl
  exact hid ((hT.holds_iff h.coherent sub.id fd).mpr ⟨p,sub,hfd,hp,rfl⟩)

lemma resubscribe_follows {e : SessionTable.Event (List UInt8) Int32 (List UInt8)}
    {subscriptions : Trie topicAlphabet.length} (hsender : ∀ id, T.Sender id e ↔ T.Holds id fd)
    (hrep : (srv.registry.resubscribe p sub subscriptions).Represents (T.next e)) :
    Follows srv { srv with heap := srv.heap.set p { sub with subscriptions := subscriptions } } T e where
  represents := hrep
  frame id hs := by
    rw [hsender] at hs
    have hframe := client_of_not_holds h hT hfd hp (r := srv.registry.resubscribe p sub subscriptions)
      { sub with subscriptions := subscriptions } rfl rfl hs
    exact hframe

theorem message_follows {i : ℕ} {io : Io} {msg : SubMsg} (hio : io = .ok) (hi : srv.watched[i]? = some fd)
    (htopic : msg.type = subscribeSubMsg ∨ msg.type = unsubscribeSubMsg →
      0 ∈ msg.topic.toList ∧ IsTopic (cString msg.topic.toList)) :
    ∃ out srv' idx, executeSubMsg srv io p (i+3) msg = ⟨out,.ok (srv',idx)⟩ ∧
      Follows srv srv' T (SubMsg.sessionEvent fd msg) := by
  obtain ⟨-,sub',hp',hsock⟩ := (h.coherent.byFd_iff fd p).mp hfd
  cases hp.symm.trans hp'
  obtain ⟨out,srv',idx,hrun,hexecuted⟩ := executeSubMsg_whole h hp (hsock ▸ hi) hio htopic
  refine ⟨out,srv',idx,hrun,?_⟩
  cases hexecuted with
  | unsubscribed htype hkeys =>
    have hevent : SubMsg.sessionEvent fd msg = .unsubscribe fd (cString msg.topic.toList) := by
      rw [SubMsg.sessionEvent,htype]
      rfl
    rw [hevent]
    exact resubscribe_follows h hT hfd hp (fun _ => Iff.rfl) (hT.unsubscribe h.coherent hfd hp hkeys)
  | subscribed htype hkeys =>
    have hevent : SubMsg.sessionEvent fd msg = .subscribe fd (cString msg.topic.toList) := by
      rw [SubMsg.sessionEvent,htype]
      rfl
    rw [hevent]
    exact resubscribe_follows h hT hfd hp (fun _ => Iff.rfl) (hT.subscribe h.coherent hfd hp hkeys)
  | closed htype hreg _ =>
    have hevent : SubMsg.sessionEvent fd msg = .close fd := by
      rw [SubMsg.sessionEvent,htype]
      rfl
    rw [hevent]
    refine ⟨?_,fun id hs => ?_⟩
    · rw [hreg]
      exact hT.disconnect h.coherent hfd hp
    · rw [hreg]
      have hframe := client_of_not_holds h hT hfd hp (r := srv.registry.disconnect p sub)
        { sub with sockFd := -1 } rfl rfl hs
      exact hframe
  | ignored hun hsub hclose =>
    have hevent : SubMsg.sessionEvent fd msg = .idle := by
      rw [SubMsg.sessionEvent,if_neg hun,if_neg hsub,if_neg hclose]
    rw [hevent]
    exact ⟨hT,fun _ _ => rfl⟩

end Message

lemma follows_of_not_watched {fd : Int32} (hfd : fd ∉ srv.watched) (msg : SubMsg) :
    Follows srv srv T (SubMsg.sessionEvent fd msg) := by
  have hnobody : ∀ id, ¬ T.Holds id fd := by
    intro id hid
    obtain ⟨p,sub,hbyFd,-⟩ := (hT.holds_iff h.coherent id fd).mp hid
    have hsome : (srv.registry.byFd fd).isSome := by
      rw [hbyFd]
      rfl
    exact hfd ((h.coherent.watched_iff fd).mpr hsome)
  have hsender : ∀ id, ¬ T.Sender id (SubMsg.sessionEvent fd msg) := by
    intro id
    rw [SubMsg.sessionEvent]
    split_ifs
    · exact hnobody id
    · exact hnobody id
    · exact hnobody id
    · exact not_false
  refine ⟨fun id => ?_,fun _ _ => rfl⟩
  rw [Table.next_of_not_sender (hsender id)]
  exact hT id

/-- Every orderly event is handled, and the server follows the session table. -/
theorem step_follows {e : Event} (ho : Orderly order (baseFds u w) t e) :
    ∃ out srv', step order srv e = ⟨out,.ok srv'⟩ ∧ Follows srv srv' T (e.sessionEvent order) := by
  cases e with
  | command io line => exact absurd ho id
  | datagram dgram =>
    obtain ⟨hio,got,hgot,hge,hle,htopic⟩ := ho
    obtain ⟨msg,-,hrun⟩ := step_datagram h.sound order hio hgot hge hle htopic
    exact ⟨_,srv,hrun,hT,fun _ _ => rfl⟩
  | connection conn =>
    obtain ⟨hne,-,hopt,hio,got,hgot,hlen⟩ := ho
    have hevent : (Event.connection conn).sessionEvent order = .connect (cString got) conn.fd := by
      rw [Event.sessionEvent,hgot]
      rfl
    rw [hevent]
    exact connection_follows h order hT ⟨hne,hopt,hgot,hlen⟩ hio
  | message fd msg =>
    obtain ⟨hio,sent,hsent,htopic⟩ := ho
    have hevent : (Event.message fd msg).sessionEvent order = SubMsg.sessionEvent fd sent := by
      simp only [Event.sessionEvent,hsent,subMsg_whole]
    rw [hevent]
    simp only [step]
    by_cases hfd : fd ∈ srv.watched
    · obtain ⟨i,p,sub,hi,hidx,hbyFd,hp,-,-⟩ := h.entry hfd
      obtain ⟨out,srv',idx,hrun,hfollows⟩ := message_follows h hT hbyFd hp hio hi htopic
      refine ⟨out ++ [],srv',?_,hfollows⟩
      rw [hidx]
      simp only [handleSubMsg_eq order hi hbyFd hp,hsent,subMsg_whole,hrun]
      rfl
    · have hidx : srv.pfdIdx fd = none := by
        rw [Srv.pfdIdx,List.idxOf?_eq_none_iff.mpr hfd]
        rfl
      rw [hidx]
      exact ⟨[],srv,rfl,follows_of_not_watched h hT hfd sent⟩

end Step

section Runs
variable {u w : Int32} {order : ByteOrder} {es : List Event} {t : List Effect} {srv : Srv}

lemma orderly_inv (run : Run (machine order u w) (Orderly order (baseFds u w)) es t srv) : Inv u w t srv :=
  reachable_inv (run.mono fun _ _ _ h => h.admissible)

/-- Forward simulation of the session table by the server. -/
theorem orderly_represents (run : Run (machine order u w) (Orderly order (baseFds u w)) es t srv) :
    srv.registry.Represents (tableAfter order es) := by
  have hstart : (initSrv u w).registry.Represents Table.empty := by
    rw [registry_init]
    exact fun id => .none
  have hsim := run.simulation (fun T e => T.next (e.sessionEvent order))
    (fun t srv T => Inv u w t srv ∧ srv.registry.Represents T) ⟨inv_init,hstart⟩ ?_
  · rw [tableAfter,Table.after,List.foldl_map]
    exact hsim.2
  · rintro t srv T e out srv' ⟨h,hT⟩ ho hrun
    obtain ⟨out',srv'',hrun',hfollows⟩ := step_follows h order hT ho
    cases hrun'.symm.trans hrun
    exact ⟨h.step ho.admissible hrun,hfollows.represents⟩

/-- The open descriptors are those from the start and the connections that clients hold. -/
lemma openFds_iff_holds (h : Inv u w t srv) {T : Table (List UInt8) Int32 (List UInt8)}
    (hT : srv.registry.Represents T) (fd : Int32) :
    fd ∈ openFds (baseFds u w) t ↔ fd ∈ baseFds u w ∨ ∃ id, T.Holds id fd := by
  rw [h.fds.open_iff]
  refine or_congr_right ?_
  constructor
  · intro hfd
    obtain ⟨p,sub,hbyFd,hp,-⟩ := h.coherent.byFd_of_mem hfd
    exact ⟨sub.id,(hT.holds_iff h.coherent _ fd).mpr ⟨p,sub,hbyFd,hp,rfl⟩⟩
  · rintro ⟨id,hid⟩
    obtain ⟨p,sub,hbyFd,-⟩ := (hT.holds_iff h.coherent id fd).mp hid
    refine (h.coherent.watched_iff fd).mpr ?_
    rw [hbyFd]
    rfl

/-- The four structures agree: the poll array, the subscriber list and the two tables. -/
structure Srv.Consistent (srv : Srv) : Prop where
  nfds_ge : 3 ≤ srv.nfds
  nfds_le : srv.nfds ≤ srv.maxNfds
  subs_nodup : srv.subs.Nodup
  watched_nodup : srv.watched.Nodup
  watched_iff (fd : Int32) : fd ∈ srv.watched ↔
    fd ≠ -1 ∧ ∃ p ∈ srv.subs, ∃ sub, srv.heap[p]? = some sub ∧ sub.sockFd = fd
  byFd_iff (key : UInt32) (p : Ptr) : htGet srv.subsByFd key = some p ↔ p ∈ srv.subs ∧
    ∃ sub, srv.heap[p]? = some sub ∧ sub.sockFd ≠ -1 ∧ sub.sockFd.toUInt32 = key
  byId_iff (id : List UInt8) (p : Ptr) : htGet srv.subsById id = some p ↔ p ∈ srv.subs ∧
    ∃ sub, srv.heap[p]? = some sub ∧ sub.id = id
  ids_distinct {p q : Ptr} {sub sub' : Sub} : p ∈ srv.subs → q ∈ srv.subs → srv.heap[p]? = some sub →
    srv.heap[q]? = some sub' → sub.id = sub'.id → p = q
  /-- An entry of the poll array leads to the block of its own client and to no other. -/
  entry {i : ℕ} {pfd : Pollfd} : 3 ≤ i → i < srv.nfds → srv.pfds[i]? = some pfd →
    ∃ p sub, htGet srv.subsByFd pfd.fd.toUInt32 = some p ∧ srv.heap[p]? = some sub ∧ sub.sockFd = pfd.fd ∧
      ∀ q sub', srv.heap[q]? = some sub' → sub'.sockFd = pfd.fd → q = p

/-- The table of descriptors names the connected clients, by its unsigned keys. -/
lemma Inv.subsByFd_iff (h : Inv u w t srv) (key : UInt32) (p : Ptr) : htGet srv.subsByFd key = some p ↔
    ∃ sub, srv.heap[p]? = some sub ∧ sub.sockFd ≠ -1 ∧ sub.sockFd.toUInt32 = key := by
  have hkey : key = key.toInt32.toUInt32 := key.toUInt32_toInt32.symm
  have hiff := h.coherent.byFd_iff key.toInt32 p
  change htGet srv.subsByFd key.toInt32.toUInt32 = some p ↔ _ at hiff
  rw [← hkey] at hiff
  rw [hiff]
  constructor
  · rintro ⟨hne,sub,hp,hsock⟩
    refine ⟨sub,hp,?_,?_⟩
    · rwa [hsock]
    · rw [hsock,← hkey]
  · rintro ⟨sub,hp,hne,hsock⟩
    have heq : sub.sockFd = key.toInt32 := toUInt32_injective (hsock.trans hkey)
    exact ⟨heq ▸ hne,sub,hp,heq⟩

lemma Inv.consistent (h : Inv u w t srv) : srv.Consistent := by
  have hsubs : ∀ p, p ∈ srv.subs ↔ p < srv.heap.length := by
    intro p
    rw [h.sound.subs_eq]
    simp
  have hlt : ∀ {p : Ptr} {sub : Sub}, srv.heap[p]? = some sub → p ∈ srv.subs :=
    fun hp => (hsubs _).mpr (List.getElem?_eq_some_iff.mp hp).1
  refine ⟨h.sound.nfds_ge,h.sound.nfds_le,?_,h.coherent.nodup,fun fd => ?_,fun key p => ?_,fun id p => ?_,?_,?_⟩
  · rw [h.sound.subs_eq]
    exact List.nodup_reverse.mpr List.nodup_range
  · constructor
    · intro hfd
      obtain ⟨p,sub,-,hp,hsock,hne⟩ := h.coherent.byFd_of_mem hfd
      exact ⟨hne,p,hlt hp,sub,hp,hsock⟩
    · rintro ⟨hne,p,-,sub,hp,rfl⟩
      exact h.coherent.mem_of_getElem? hp hne
  · rw [h.subsByFd_iff,iff_and_self]
    rintro ⟨sub,hp,-⟩
    exact hlt hp
  · refine (h.coherent.byId_iff id p).trans (iff_and_self.mpr ?_)
    rintro ⟨sub,hp,-⟩
    exact hlt hp
  · intro p q sub sub' _ _ hp hq hid
    have hbyId := h.coherent.byId_of_getElem? hp
    rw [hid] at hbyId
    exact Option.some_injective _ (hbyId.symm.trans (h.coherent.byId_of_getElem? hq))
  · intro i pfd hi hlt' hpfd
    have hwatched : pfd.fd ∈ srv.watched := by
      refine List.mem_map_of_mem (List.mem_of_getElem? (i := i-3) ?_)
      rw [List.getElem?_drop,Nat.add_sub_cancel' hi,List.getElem?_take_of_lt hlt',hpfd]
    obtain ⟨p,sub,hbyFd,hp,hsock,hne⟩ := h.coherent.byFd_of_mem hwatched
    refine ⟨p,sub,hbyFd,hp,hsock,fun q sub' hq hsock' => ?_⟩
    have hbyFd' := (h.coherent.byFd_iff pfd.fd q).mpr ⟨hne,sub',hq,hsock'⟩
    exact Option.some_injective _ (hbyFd'.symm.trans hbyFd)

/-- On topics without empty levels a client wants what one of its keys matches. -/
lemma Sub.wants_iff (sub : Sub) {topic : List UInt8} (hlevels : ∀ l ∈ levels topic, l ≠ []) :
    sub.wants topic = true ↔
      sub.sockFd ≠ -1 ∧ ∃ key, sub.subscriptions.Holds key ∧ MatchesTopic key topic := by
  rw [Sub.wants,Bool.and_eq_true,List.any_eq_true,decide_eq_true_eq]
  refine and_congr_right fun _ => exists_congr fun key => ?_
  rw [mem_patterns_iff_matches hlevels,and_comm]
  rfl

/-- Those who want a topic are those who receive it by the table. -/
lemma receives_iff (h : Inv u w t srv) {T : Table (List UInt8) Int32 (List UInt8)}
    (hT : srv.registry.Represents T) {topic : List UInt8} (hlevels : ∀ l ∈ levels topic, l ≠ [])
    (id : List UInt8) (fd : Int32) : T.Receives (fun key => MatchesTopic key topic) id fd ↔
      ∃ (p : Ptr) (sub : Sub), srv.heap[p]? = some sub ∧ sub.wants topic ∧ sub.id = id ∧ sub.sockFd = fd := by
  constructor
  · rintro ⟨s,hs,hfd,key,hkey,hmatch⟩
    obtain ⟨sub,hclient,hsession⟩ := hT.client_some hs
    obtain ⟨p,-,hp,hid⟩ := h.coherent.getElem?_of_client hclient
    obtain ⟨hne,hsock⟩ := (hsession.fd_iff fd).mp hfd
    refine ⟨p,sub,hp,(sub.wants_iff hlevels).mpr ⟨?_,key,(hsession.topics_iff key).mp hkey,hmatch⟩,hid,hsock⟩
    rwa [hsock]
  · rintro ⟨p,sub,hp,hwants,rfl,rfl⟩
    obtain ⟨hne,key,hkey,hmatch⟩ := (sub.wants_iff hlevels).mp hwants
    obtain ⟨s,hs,hsession⟩ := hT.session_some (h.coherent.client_of_getElem? hp)
    exact ⟨s,hs,(hsession.fd_iff _).mpr ⟨hne,rfl⟩,key,(hsession.topics_iff key).mpr hkey,hmatch⟩

end Runs

end ClientServerApp.Server
