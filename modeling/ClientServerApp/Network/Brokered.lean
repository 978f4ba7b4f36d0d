import ClientServerApp.Network.Programs
import ClientServerApp.Server.Descriptors

/-! The server and its subscribers are a broker and its programs: what a handler call does to the queues and to the
server, the event of the broker does to requests, messages and topics. -/
namespace ClientServerApp.Network.Closed
open Traced Runs SessionTable
open Server (Srv Inv baseFds openFds IsRelayed)

section Events

/-- What the broker is asked to publish. -/
def relay (order : ByteOrder) (dgram : Server.Datagram) : BrokerEvent :=
  match dgram.received with
  | none => .idle
  | some got =>
    match Server.srvMsg order dgram.addr (UdpMsg.ofBytes (dgram.stack.overwrite got)) got.length with
    | .ok msg => .publish msg fun key => key ∈ patterns (cString (got.take maxTopicSize))
    | .error _ => .idle

/-- The event as the broker sees it. -/
def Event.brokerEvent (order : ByteOrder) : Event → BrokerEvent
  | .start sub => .start sub.id
  | .line k text => (typed text).elim .idle (.request k)
  | .handle k _ => .deliver k
  | .accept _ _ _ => .accept
  | .read k _ => .read k
  | .datagram dgram => relay order dgram
  | .console text => if tokens text = [chars "exit"] then .stop else .idle

/-- The session table knows the connections of the subscribers and the topics of their ids. -/
structure Told (T : Table (List UInt8) Int32 (List UInt8)) (clients : List Client)
    (topics : List UInt8 → Finset (List UInt8)) : Prop where
  holds (id : List UInt8) (fd : Int32) : T.Holds id fd ↔ (id,some fd) ∈ clients.map Client.view
  topics_eq (id : List UInt8) : (T.session id).elim ∅ Session.topics = topics id

/-- The system is in a state that the broker is in. -/
structure Refines (u w : Int32) (order : ByteOrder) (t : List Server.Effect) (sys : System) (b : State) : Prop where
  peers_eq : b.peers = sys.clients.map (Client.peer order)
  accepted_eq : b.accepted = sys.accepted
  stopped_eq : b.stopped = sys.server.isNone
  sound : b.Sound ends
  clients {client : Client} : client ∈ sys.clients → client.Sound order
  inv {srv : Srv} : sys.server = some srv → Inv u w t srv
  told {srv : Srv} : sys.server = some srv → ∃ T, srv.registry.Represents T ∧ Told T sys.clients b.topics

variable {u w : Int32} {order : ByteOrder} {t : List Server.Effect} {sys : System} {b : State}

lemma refines_init : Refines u w order [] ⟨some (Server.initSrv u w),[],0⟩ Broker.State.empty where
  peers_eq := rfl
  accepted_eq := rfl
  stopped_eq := rfl
  sound := Broker.State.sound_empty
  clients h := absurd h List.not_mem_nil
  inv h := by
    cases h
    exact Server.inv_init
  told h := by
    cases h
    refine ⟨Table.empty,?_,⟨fun id fd => ?_,fun id => rfl⟩⟩
    · rw [Server.registry_init]
      exact fun id => .none
    · refine iff_of_false ?_ (by simp)
      rintro ⟨s,hs,-⟩
      cases hs

section Lists
variable {α β : Type} {l : List α} {k : ℕ} {x y : α} {g : α → β}

lemma modify_eq_set (hx : l[k]? = some x) (f : α → α) : l.modify k f = l.set k (f x) := by
  rw [List.modify_eq_set_getElem?,hx]
  rfl

lemma set_self (hx : l[k]? = some x) : l.set k x = l := by
  obtain ⟨hk,rfl⟩ := List.getElem?_eq_some_iff.mp hx
  exact List.set_getElem_self hk

/-- A change of one element that a map does not see. -/
lemma map_set_eq (hx : l[k]? = some x) (hy : g y = g x) : (l.set k y).map g = l.map g := by
  have hx' : (l.map g)[k]? = some (g x) := by rw [List.getElem?_map,hx,Option.map_some]
  rw [List.map_set,hy,set_self hx']

lemma mem_set_iff {z : α} (hx : l[k]? = some x) (hz : z ≠ x) : z ∈ l.set k y ↔ z = y ∨ z ∈ l := by
  constructor
  · intro hmem
    exact (List.mem_or_eq_of_mem_set hmem).symm
  · rintro (rfl | hmem)
    · exact List.mem_set (List.getElem?_eq_some_iff.mp hx).1 _
    · obtain ⟨i,hi⟩ := List.mem_iff_getElem?.mp hmem
      have hik : i ≠ k := by
        rintro rfl
        exact hz (Option.some_injective _ (hi.symm.trans hx))
      exact List.mem_of_getElem? ((List.getElem?_set_ne (Ne.symm hik)).trans hi)

/-- A map that leaves the other elements alone does not matter behind a change of that one. -/
lemma set_map_eq {f : α → α} (hf : ∀ i x, l[i]? = some x → i ≠ k → f x = x) : (l.map f).set k y = l.set k y := by
  apply List.ext_getElem?
  intro i
  rw [List.getElem?_set,List.getElem?_set,List.getElem?_map,List.length_map]
  split_ifs with hi
  · rfl
  · rfl
  · cases hx : l[i]? with
    | none => rfl
    | some x => rw [Option.map_some,hf i x hx (Ne.symm hi)]

end Lists

lemma Told.set {T : Table (List UInt8) Int32 (List UInt8)} {clients : List Client}
    {topics : List UInt8 → Finset (List UInt8)} (h : Told T clients topics) {k : ℕ} {client client' : Client}
    (hk : clients[k]? = some client) (hview : client'.view = client.view) :
    Told T (clients.set k client') topics where
  holds id fd := by
    rw [map_set_eq hk hview]
    exact h.holds id fd
  topics_eq := h.topics_eq

section Subscribers
variable (h : Refines u w order t sys b)
include h

lemma Refines.peer_some {k : ℕ} {client : Client} (hk : sys.clients[k]? = some client) :
    b.peers[k]? = some (client.peer order) := by
  rw [h.peers_eq,List.getElem?_map,hk]
  rfl

lemma Refines.peer_none {k : ℕ} (hk : sys.clients[k]? = none) (f : Peer → Peer) : b.peers.modify k f = b.peers := by
  refine List.modify_eq_self ?_
  rw [h.peers_eq,List.length_map]
  exact List.getElem?_eq_none_iff.mp hk

/-- A subscriber that goes on alone, as its program does. -/
lemma Refines.set {k : ℕ} {client client' : Client} {b' : State} (hk : sys.clients[k]? = some client)
    (hsound : client'.Sound order) (hview : client'.view = client.view) (hb' : b'.Sound ends)
    (hnext : b' = { b with peers := b.peers.set k (client'.peer order) }) :
    Refines u w order t { sys with clients := sys.clients.set k client' } b' where
  peers_eq := by
    rw [hnext,h.peers_eq]
    exact List.map_set.symm
  accepted_eq := by
    rw [hnext]
    exact h.accepted_eq
  stopped_eq := by
    rw [hnext]
    exact h.stopped_eq
  sound := hb'
  clients hc := by
    rcases List.mem_or_eq_of_mem_set hc with hc | rfl
    · exact h.clients hc
    · exact hsound
  inv := h.inv
  told hsrv := by
    obtain ⟨T,hT,htold⟩ := h.told hsrv
    rw [hnext]
    exact ⟨T,hT,htold.set hk hview⟩

/-- A line is typed to a subscriber. -/
lemma Refines.line {k : ℕ} {text : List UInt8} (hproper : Proper (baseFds u w) t sys (.line k text)) : ∃ sys',
    step order sys (.line k text) = ⟨[],.ok sys'⟩ ∧
      Refines u w order t sys' (b.next Server.closeMsg ends ((typed text).elim .idle (.request k))) := by
  obtain ⟨hsubscribe,hunsubscribe,htopic⟩ := hproper
  have hsound : (b.next Server.closeMsg ends ((typed text).elim .idle (.request k))).Sound ends := by
    refine h.sound.next rfl ?_
    cases typed text <;> trivial
  rw [step,advance]
  cases hk : sys.clients[k]? with
  | none =>
    refine ⟨sys,rfl,?_⟩
    have hnext : b.next Server.closeMsg ends ((typed text).elim .idle (.request k)) = b := by
      cases typed text with
      | none => rfl
      | some r => exact congrArg (fun peers => { b with peers := peers }) (h.peer_none hk _)
    rwa [hnext]
  | some client =>
    obtain ⟨client',htype,hsound',hview,hpeer⟩ :=
      type_peer (h.clients (List.mem_of_getElem? hk)) hsubscribe hunsubscribe htopic
    simp only [htype,lift_ok_bind]
    refine ⟨_,rfl,h.set hk hsound' hview hsound ?_⟩
    have hp := h.peer_some hk
    cases htyped : typed text with
    | none =>
      rw [hpeer,htyped]
      exact congrArg (fun peers => { b with peers := peers }) (set_self hp).symm
    | some r =>
      rw [hpeer,htyped]
      exact congrArg (fun peers => { b with peers := peers }) (modify_eq_set hp _)

/-- A subscriber handles a message. -/
lemma Refines.handle (k : ℕ) (stack : Buffer srvMsgSize) : ∃ sys',
    step order sys (.handle k stack) = ⟨[],.ok sys'⟩ ∧
      Refines u w order t sys' (b.next Server.closeMsg ends (.deliver k)) := by
  have hsound : (b.next Server.closeMsg ends (.deliver k)).Sound ends := h.sound.next rfl trivial
  rw [step,advance]
  cases hk : sys.clients[k]? with
  | none =>
    refine ⟨sys,rfl,?_⟩
    have hnext : b.next Server.closeMsg ends (.deliver k) = b :=
      congrArg (fun peers => { b with peers := peers }) (h.peer_none hk _)
    rwa [hnext]
  | some client =>
    obtain ⟨client',hhandle,hsound',hview,hpeer⟩ := handle_peer (h.clients (List.mem_of_getElem? hk)) stack
    simp only [hhandle,lift_ok_bind]
    refine ⟨_,rfl,h.set hk hsound' hview hsound ?_⟩
    rw [hpeer]
    exact congrArg (fun peers => { b with peers := peers }) (modify_eq_set (h.peer_some hk) _)

/-- A subscriber starts. -/
lemma Refines.start {sub : Subscriber.Sub} (hproper : Proper (baseFds u w) t sys (.start sub)) : ∃ sys',
    step order sys (.start sub) = ⟨[],.ok sys'⟩ ∧
      Refines u w order t sys' (b.next Server.closeMsg ends (.start sub.id)) := by
  obtain ⟨-,hfits,hnul⟩ := hproper
  refine ⟨_,rfl,?_,h.accepted_eq,h.stopped_eq,h.sound.next rfl trivial,fun hc => ?_,h.inv,fun hsrv => ?_⟩
  · rw [List.map_append,← h.peers_eq]
    rfl
  · rcases List.mem_append.mp hc with hc | hc
    · exact h.clients hc
    · rw [List.mem_singleton.mp hc]
      exact ⟨hfits,hnul,fun hb => absurd hb List.not_mem_nil,fun hm => absurd hm List.not_mem_nil⟩
  · obtain ⟨T,hT,htold⟩ := h.told hsrv
    refine ⟨T,hT,fun id fd => ?_,htold.topics_eq⟩
    rw [htold.holds,List.map_append]
    simp [Client.view]

end Subscribers

section Server
variable {srv : Srv} {T : Table (List UInt8) Int32 (List UInt8)} (h : Inv u w t srv) (hT : srv.registry.Represents T)
include h hT

variable (order) in
/-- The server connects a new client to a free id and refuses one to an id in use. -/
lemma connection_cases {conn : Server.Connection} {id : List UInt8}
    (ho : Server.Orderly order (baseFds u w) t (.connection conn)) (hid : conn.received = some id) : ∃ out srv',
    Server.step order srv (.connection conn) = ⟨out,.ok srv'⟩ ∧ Inv u w (t ++ out) srv' ∧
      srv'.registry.Represents (T.next (.connect (cString id) conn.fd)) ∧
      ((∀ g, ¬ T.Holds (cString id) g) ∧ (∃ line, out = [.accept conn.fd,.print line]) ∨
        (∃ g, T.Holds (cString id) g) ∧
          ∃ line, out = [.accept conn.fd,.send conn.fd Server.closeMsg,.close conn.fd,.print line]) := by
  obtain ⟨out,srv',hrun,hfollows⟩ := Server.step_follows h order hT ho
  have hevent : (Server.Event.connection conn).sessionEvent order = .connect (cString id) conn.fd := by
    simp only [Server.Event.sessionEvent,hid,Option.getD_some]
  have hrep := hfollows.represents
  rw [hevent] at hrep
  refine ⟨out,srv',hrun,h.step ho.admissible hrun,hrep,?_⟩
  cases h.connection_transition hrun with
  | @first _ got _ line hconn hunknown =>
    cases hid.symm.trans hconn.received_eq
    refine .inl ⟨fun g hg => ?_,line,rfl⟩
    obtain ⟨p,sub,-,hp,hsub⟩ := (hT.holds_iff h.coherent _ g).mp hg
    have hknown := (h.coherent.byId_iff _ p).mpr ⟨sub,hp,hsub⟩
    rw [hunknown] at hknown
    cases hknown
  | @again _ got p _ line sub hconn hp hsub hold =>
    cases hid.symm.trans hconn.received_eq
    refine .inl ⟨fun g hg => ?_,line,rfl⟩
    obtain ⟨q,sub',hfd,hq,hsub'⟩ := (hT.holds_iff h.coherent _ g).mp hg
    have hbyId := (h.coherent.byId_iff _ p).mpr ⟨sub,hp,hsub⟩
    have hbyId' := (h.coherent.byId_iff _ q).mpr ⟨sub',hq,hsub'⟩
    cases hbyId.symm.trans hbyId'
    cases hp.symm.trans hq
    obtain ⟨hne,sub'',hp',hsock⟩ := (h.coherent.byFd_iff g p).mp hfd
    cases hp.symm.trans hp'
    exact hne (hsock.symm.trans hold)
  | @refused _ got line p sub hconn hp hsub hlive =>
    cases hid.symm.trans hconn.received_eq
    refine .inr ⟨⟨sub.sockFd,?_⟩,line,rfl⟩
    exact (hT.holds_iff h.coherent _ _).mpr ⟨p,sub,(h.coherent.byFd_iff _ p).mpr ⟨hlive,sub,hp,rfl⟩,hp,hsub⟩

/-- The server executes a request from the holder of a connection, and closes it when that is asked for. -/
lemma message_cases {id : List UInt8} {fd : Int32} (hholds : T.Holds id fd) (stack : Buffer subMsgSize) {r : Request}
    (hr : IsRequest r) : ∃ out srv',
    Server.step order srv (.message fd ⟨stack,some ((requestMsg r).bytes order),.ok⟩) = ⟨out,.ok srv'⟩ ∧
      Inv u w (t ++ out) srv' ∧ srv'.registry.Represents (T.next (sessionEvent fd r)) ∧
      if r = .close then ∃ line, out = [.close fd,.print line] else out = [] := by
  obtain ⟨p,sub,hbyFd,hp,-⟩ := (hT.holds_iff h.coherent id fd).mp hholds
  have hwatched : fd ∈ srv.watched := (h.coherent.watched_iff fd).mpr (by rw [hbyFd]; rfl)
  have ho : Server.Orderly order (baseFds u w) t (.message fd ⟨stack,some ((requestMsg r).bytes order),.ok⟩) :=
    ⟨rfl,_,rfl,requestMsg_topic hr⟩
  obtain ⟨out,srv',hrun,hfollows⟩ := Server.step_follows h order hT ho
  have hevent : (Server.Event.message fd ⟨stack,some ((requestMsg r).bytes order),.ok⟩).sessionEvent order =
      sessionEvent fd r := by
    simp only [Server.Event.sessionEvent,Server.subMsg_whole]
    exact requestMsg_sessionEvent hr fd
  have hrep := hfollows.represents
  rw [hevent] at hrep
  refine ⟨out,srv',hrun,h.step ho.admissible hrun,hrep,?_⟩
  split_ifs with hclose
  · obtain ⟨i,q,sub',hi,hidx,hq,hp',hsock,-⟩ := h.entry hwatched
    obtain ⟨srv'',hclosed,-⟩ := Server.subClosesSrvConnection_spec h.sound h.coherent hp' (hsock ▸ hi)
      (show sub'.sockFd ∉ Server.Io.ok.closeFails from List.not_mem_nil)
    have htype : (requestMsg r).type = closeSubMsg := requestMsg_close.mpr hclose
    simp only [Server.step,hidx,Server.handleSubMsg_eq order hi hq hp',Server.subMsg_whole,
      Server.executeSubMsg_close _ _ htype,hclosed,mk_ok_bind,pure_out,List.append_nil] at hrun
    rw [← hsock]
    exact ⟨_,(congrArg Traced.out hrun).symm⟩
  · cases h.transition hrun with
    | ignored => rfl
    | resubscribed => rfl
    | disconnected hgot hclosing =>
      cases hgot
      rw [Server.subMsg_whole] at hclosing
      exact absurd (requestMsg_close.mp hclosing) hclose

end Server

section Tables
variable {T : Table (List UInt8) Int32 (List UInt8)} {clients : List Client}
  {topics : List UInt8 → Finset (List UInt8)} (htold : Told T clients topics) {k : ℕ} {client : Client}
  (hk : clients[k]? = some client)
include htold hk

/-- A subscriber with a free id is connected. -/
lemma Told.connect (hnone : client.serverFd = none) (hfree : ∀ g, ¬ T.Holds client.sub.id g) (fd : Int32) :
    Told (T.next (.connect client.sub.id fd)) (clients.set k { client with serverFd := some fd }) topics := by
  have hsession := fun i => Table.next_connect_free hfree fd i
  have hview : (clients.map Client.view)[k]? = some (client.sub.id,none) := by
    rw [List.getElem?_map,hk,Option.map_some,Client.view,hnone]
  refine ⟨fun id g => ?_,fun id => ?_⟩
  · rw [List.map_set,mem_set_iff hview (by simp),← htold.holds]
    by_cases hid : id = client.sub.id
    · subst hid
      have hno : ¬ T.Holds client.sub.id g := hfree g
      simp only [hno,or_false,Client.view,Prod.mk.injEq,true_and]
      constructor
      · rintro ⟨s,hs,hg⟩
        rw [hsession,if_pos rfl] at hs
        cases hs
        exact hg.symm
      · intro hg
        exact ⟨_,(hsession _).trans (if_pos rfl),hg.symm⟩
    · have hsame : (T.next (.connect client.sub.id fd)).Holds id g ↔ T.Holds id g := by
        simp only [Table.Holds,hsession,if_neg hid]
      simp [hsame,Client.view,hid]
  · rw [hsession]
    by_cases hid : id = client.sub.id
    · subst hid
      rw [if_pos rfl]
      exact htold.topics_eq _
    · rw [if_neg hid]
      exact htold.topics_eq _

/-- The session of a subscriber after one of its requests. -/
lemma session_request (hexclusive : T.Exclusive) {fd : Int32} (hfd : client.serverFd = some fd) (r : Request)
    (i : List UInt8) : (T.next (sessionEvent fd r)).session i = if i = client.sub.id then
      some ⟨if r = .close then none else some fd,r.apply (topics client.sub.id)⟩ else T.session i := by
  have hholds : T.Holds client.sub.id fd := by
    rw [htold.holds,← hfd]
    exact List.mem_map_of_mem (List.mem_of_getElem? hk)
  obtain ⟨s,hs,hsfd⟩ := hholds
  have htopics : s.topics = topics client.sub.id := by
    rw [← htold.topics_eq,hs]
    rfl
  have hs' : s = ⟨some fd,topics client.sub.id⟩ := by
    rw [← hsfd,← htopics]
  cases r with
  | subscribe topic =>
    rw [sessionEvent,Table.next,Table.onHolder_of_session hexclusive hs hsfd,hs']
    rfl
  | unsubscribe topic =>
    rw [sessionEvent,Table.next,Table.onHolder_of_session hexclusive hs hsfd,hs']
    rfl
  | close =>
    rw [sessionEvent,Table.next,Table.onHolder_of_session hexclusive hs hsfd,hs']
    rfl

/-- A connected subscriber's request is executed. -/
lemma Told.request (hexclusive : T.Exclusive) {fd : Int32} (hfd : client.serverFd = some fd)
    (hunique : ∀ l c, clients[l]? = some c → c.serverFd = some fd → l = k) (r : Request) {client' : Client}
    (hview' : client'.view = (client.sub.id,if r = .close then none else some fd)) :
    Told (T.next (sessionEvent fd r)) (clients.set k client')
      (Function.update topics client.sub.id (r.apply (topics client.sub.id))) := by
  have hsession := session_request htold hk hexclusive hfd r
  have hview : (clients.map Client.view)[k]? = some (client.sub.id,some fd) := by
    rw [List.getElem?_map,hk,Option.map_some,Client.view,hfd]
  refine ⟨fun id g => ?_,fun id => ?_⟩
  · by_cases hid : id = client.sub.id
    · subst hid
      have hnext : (T.next (sessionEvent fd r)).Holds client.sub.id g ↔
        (if r = .close then none else some fd) = some g := by
        simp [Table.Holds,hsession]
      rw [hnext,List.map_set,hview']
      constructor
      · intro hg
        rw [hg]
        exact List.mem_set (List.getElem?_eq_some_iff.mp hview).1 _
      · intro hmem
        obtain ⟨j,hj⟩ := List.mem_iff_getElem?.mp hmem
        rw [Server.getElem?_set_of_some hview] at hj
        by_cases hjk : j = k
        · rw [if_pos hjk] at hj
          exact congrArg Prod.snd (Option.some_injective _ hj)
        · -- another connection under the id would have the same descriptor
          rw [if_neg hjk,List.getElem?_map,Option.map_eq_some_iff] at hj
          obtain ⟨c,hc,hcview⟩ := hj
          have hg : T.Holds client.sub.id g :=
            (htold.holds _ g).mpr (hcview ▸ List.mem_map_of_mem (List.mem_of_getElem? hc))
          have hholds : T.Holds client.sub.id fd := (htold.holds _ fd).mpr (List.mem_of_getElem? hview)
          have hgfd := hg.unique hholds
          rw [hgfd] at hcview
          exact absurd (hunique j c hc (congrArg Prod.snd hcview)) hjk
    · have hsame : (T.next (sessionEvent fd r)).Holds id g ↔ T.Holds id g := by
        simp only [Table.Holds,hsession,if_neg hid]
      have hne : (id,some g) ≠ (client.sub.id,some fd) := fun he => hid (congrArg Prod.fst he)
      rw [hsame,htold.holds,List.map_set,mem_set_iff hview hne,hview']
      simp [hid]
  · rw [hsession]
    by_cases hid : id = client.sub.id
    · subst hid
      rw [if_pos rfl,Function.update_self]
      rfl
    · rw [if_neg hid,Function.update_of_ne hid]
      exact htold.topics_eq id

end Tables

end Events

end ClientServerApp.Network.Closed
