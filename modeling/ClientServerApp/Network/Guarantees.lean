import ClientServerApp.Network.Service
import ClientServerApp.Library.BrokerHistory
import ClientServerApp.Matcher.Exact

/-! What the users of the whole system can rely on, whatever the order in which the programs come to act, while the
environment keeps to `Proper`. -/
namespace ClientServerApp.Network.Closed
open Traced Runs
open Server (Srv baseFds)

variable {u w : Int32} {order : ByteOrder} {es : List Event} {t : List Server.Effect} {sys : System}

section Progress

/-- The run goes on with every event of the environment. -/
lemma run_progress (run : ProperRun order u w es t sys) {e : Event} (hproper : Proper (baseFds u w) t sys e) :
    ∃ out sys', step order sys e = ⟨out,.ok sys'⟩ ∧ ProperRun order u w (es ++ [e]) (t ++ out) sys' := by
  obtain ⟨out,sys',hstep,-⟩ := (run_refines run).step hproper
  exact ⟨out,sys',hstep,.step run hproper hstep⟩

end Progress

section Example

/-- A check that only proper events pass. -/
def Event.proper (base : Finset Int32) (t : List Server.Effect) (sys : System) : Event → Bool
  | .start sub => sub.id ≠ [] && sub.id.length ≤ maxIdSize && 0 ∉ sub.id
  | .line _ text => match tokens text with
    | [word] => word ≠ chars "subscribe" && word ≠ chars "unsubscribe"
    | [_,topic] => IsTopic topic
    | _ => true
  | .accept fd _ _ => fd ≠ -1 && fd ∉ Server.openFds base t &&
      sys.clients[sys.accepted]?.all fun client => client.upstream.pending = []
  | .datagram dgram => dgram.io = .ok && dgram.received.any fun got => maxTopicSize+1 ≤ got.length &&
      got.length ≤ udpMsgSize && IsTopic (cString (got.take maxTopicSize)) && ¬ Lethal got
  | _ => true

lemma proper_of_check {base : Finset Int32} {e : Event} (h : e.proper base t sys) : Proper base t sys e := by
  cases e with
  | start sub =>
    simp only [Event.proper,Bool.and_eq_true,decide_eq_true_iff] at h
    exact ⟨h.1.1,h.1.2,h.2⟩
  | line k text =>
    simp only [Event.proper] at h
    split at h
    · next word hword =>
      simp only [Bool.and_eq_true,decide_eq_true_iff] at h
      refine ⟨by rw [hword]; simpa using h.1,by rw [hword]; simpa using h.2,fun c hc => ?_⟩
      exact absurd (hword.symm.trans hc) (Command.singleton_ne_tokens word c)
    · next word topic htokens =>
      refine ⟨by simp [htokens],by simp [htokens],fun c hc _ => ?_⟩
      obtain ⟨-,rfl⟩ : word = c.word ∧ topic = c.topic := by simpa [Command.tokens] using htokens.symm.trans hc
      exact of_decide_eq_true h
    · next hone htwo =>
      exact ⟨hone _,hone _,fun c hc => absurd hc (htwo _ _)⟩
  | handle k stack => trivial
  | accept fd addr stack =>
    simp only [Event.proper,Bool.and_eq_true,decide_eq_true_iff,Option.all_eq_true] at h
    exact ⟨h.1.1,h.1.2,h.2⟩
  | read k stack => trivial
  | datagram dgram =>
    simp only [Event.proper,Bool.and_eq_true,decide_eq_true_iff,Option.any_eq_true] at h
    obtain ⟨hio,got,hgot,⟨⟨hge,hle⟩,htopic⟩,hlethal⟩ := h
    exact ⟨hio,got,hgot,hge,hle,htopic,hlethal⟩
  | console text => trivial

/-- A proper run that can be computed. -/
lemma exists_proper_run {es : List Event} {P : System → Bool} (h : ((machine .little 3 4).exec
      (fun t sys e => e.proper (baseFds 3 4) t sys) [] (machine .little 3 4).init es).any fun r => P r.2) :
    ∃ t sys, ProperRun .little 3 4 es t sys ∧ P sys :=
  exists_run (fun _ _ _ => proper_of_check) h

/-- Two subscribers start and are accepted, `subscribe a/+` is typed to the first one, and the server reads that. -/
def exampleEvents : List Event := [.start ⟨8,chars "c"⟩,.start ⟨9,chars "d"⟩,
  .accept 5 ⟨Buffer.zeroed 4,Buffer.zeroed 2⟩ (Buffer.zeroed _),
  .accept 6 ⟨Buffer.zeroed 4,Buffer.zeroed 2⟩ (Buffer.zeroed _),
  .line 0 (chars "subscribe a/+"),.read 0 (Buffer.zeroed _)]

/-- The text `hello` is published on `a/b`. -/
def helloEvent : Event := .datagram Server.helloDatagram

lemma hello_proper (t : List Server.Effect) (sys : System) : Proper (baseFds 3 4) t sys helloEvent :=
  ⟨rfl,Server.helloBytes,rfl,by decide +kernel,by decide +kernel,by decide +kernel,by decide +kernel⟩

end Example

section Refinement

/-- Refinement: after every proper run the server and its subscribers are in a state of the broker, and whichever
proper event comes next, no program fails and the broker makes the same step. -/
theorem service_refines_broker (run : ProperRun order u w es t sys) :
    Refines u w order t sys (broker order es) ∧ ∀ e, Proper (baseFds u w) t sys e → ∃ out sys',
      step order sys e = ⟨out,.ok sys'⟩ ∧ Refines u w order (t ++ out) sys' (broker order (es ++ [e])) := by
  refine ⟨run_refines run,fun e hproper => ?_⟩
  obtain ⟨out,sys',hstep,run'⟩ := run_progress run hproper
  exact ⟨out,sys',hstep,run_refines run'⟩

/-- The text that comes next waits for the first subscriber alone. -/
theorem service_refines_example : ∃ t sys out sys', ProperRun .little 3 4 exampleEvents t sys ∧
    step .little sys helloEvent = ⟨out,.ok sys'⟩ ∧
    Refines 3 4 .little (t ++ out) sys' (broker .little (exampleEvents ++ [helloEvent])) ∧
    sys'.clients.map (fun c => c.downstream.pending.length) = [1,0] := by
  obtain ⟨t,sys,run,-⟩ := @exists_proper_run exampleEvents (fun _ => true) (by decide +kernel)
  obtain ⟨-,hnext⟩ := service_refines_broker run
  obtain ⟨out,sys',hstep,h⟩ := hnext helloEvent (hello_proper t sys)
  have hpending : (broker .little (exampleEvents ++ [helloEvent])).peers.map (fun p => p.downstream.pending.length) =
      [1,0] := by decide +kernel
  rw [h.peers_eq,List.map_map] at hpending
  exact ⟨t,sys,out,sys',run,hstep,h,hpending⟩

end Refinement

section Agreement

/-- The requests under an id that the server has read, connection after connection. -/
def System.requests (order : ByteOrder) (sys : System) (id : List UInt8) : List Request :=
  sys.clients.flatMap fun c => if c.sub.id = id then c.upstream.received.map (request order) else []

lemma Refines.requests_eq {b : State} (h : Refines u w order t sys b) (id : List UInt8) :
    b.requests id = sys.requests order id := by
  rw [Broker.State.requests,h.peers_eq,List.flatMap_map]
  rfl

lemma Refines.mem_topics {b : State} (h : Refines u w order t sys b) (id topic : List UInt8) :
    topic ∈ b.topics id ↔ Broker.Request.Leaves (sys.requests order id) topic := by
  rw [← h.requests_eq]
  exact h.sound.topics id topic

/-- Agreement of both sides: the topics that the server keeps for an id are those its requests left, it monitors the
connections that it has with subscribers, an id has one of them at most, of a later subscriber of the id it has read
nothing, and nothing is queued behind a closing request that it has read. -/
theorem registry_agrees (run : ProperRun order u w es t sys) {srv : Srv}
    (hsrv : sys.server = some srv) :
    (∀ sub ∈ srv.heap, ∀ topic, sub.subscriptions.Holds topic ↔
      Broker.Request.Leaves (sys.requests order sub.id) topic) ∧
    (∀ fd, fd ∈ srv.watched ↔ ∃ c ∈ sys.clients, c.serverFd = some fd) ∧
    (∀ (k l : ℕ) (c d : Client), sys.clients[k]? = some c → sys.clients[l]? = some d → k < l →
      d.sub.id = c.sub.id → c.serverFd.isSome → d.serverFd = none ∧ d.upstream.received = []) ∧
    ∀ c ∈ sys.clients, .close ∈ c.upstream.received.map (request order) → c.upstream.pending = [] := by
  have h := run_refines run
  obtain ⟨T,hT,htold⟩ := h.told hsrv
  have hinv := h.inv hsrv
  refine ⟨fun sub hsub topic => ?_,fun fd => ?_,fun k l c d hc hd hkl hid hconnected => ?_,fun c hc hclose => ?_⟩
  · obtain ⟨p,hp⟩ := List.mem_iff_getElem?.mp hsub
    obtain ⟨s,hs,hsession⟩ := hT.session_some (hinv.coherent.client_of_getElem? hp)
    have htopics : s.topics = (broker order es).topics sub.id := by
      rw [← htold.topics_eq,hs]
      rfl
    rw [← hsession.topics_iff,htopics]
    exact h.mem_topics sub.id topic
  · rw [show fd ∈ srv.watched ↔ (srv.registry.byFd fd).isSome from hinv.coherent.watched_iff fd]
    constructor
    · intro hfd
      obtain ⟨p,hp⟩ := Option.isSome_iff_exists.mp hfd
      obtain ⟨-,sub,hsub,-⟩ := (hinv.coherent.byFd_iff fd p).mp hp
      have hholds := (hT.holds_iff hinv.coherent sub.id fd).mpr ⟨p,sub,hp,hsub,rfl⟩
      obtain ⟨c,hc,hview⟩ := List.mem_map.mp ((htold.holds _ _).mp hholds)
      exact ⟨c,hc,congrArg Prod.snd hview⟩
    · rintro ⟨c,hc,hfd⟩
      have hholds : T.Holds c.sub.id fd := by
        rw [htold.holds,← hfd]
        exact List.mem_map_of_mem hc
      obtain ⟨p,sub,hp,-⟩ := (hT.holds_iff hinv.coherent _ fd).mp hholds
      rw [hp]
      rfl
  · obtain ⟨hnone,hreceived⟩ := h.sound.alone hkl (h.peer_some hc) (h.peer_some hd) hid hconnected
    exact ⟨by simpa [Client.peer] using hnone,by simpa [Client.peer] using hreceived⟩
  · obtain ⟨k,hk⟩ := List.mem_iff_getElem?.mp hc
    simpa [Client.peer] using h.sound.drained_of_close (h.peer_some hk) hclose

/-- The server monitors both connections, and keeps the one topic for the id of the first alone. -/
theorem registry_agrees_example : ∃ t sys srv, ProperRun .little 3 4 exampleEvents t sys ∧ sys.server = some srv ∧
    (∀ fd, fd ∈ srv.watched ↔ fd = 5 ∨ fd = 6) ∧
    (∀ sub ∈ srv.heap, sub.id = chars "c" → ∀ topic, sub.subscriptions.Holds topic ↔ topic = chars "a/+") ∧
    ∀ sub ∈ srv.heap, sub.id = chars "d" → ∀ topic, ¬ sub.subscriptions.Holds topic := by
  obtain ⟨t,sys,run,hP⟩ := @exists_proper_run exampleEvents (fun sys => sys.server.isSome ∧
    sys.clients.map Client.serverFd = [some 5,some 6] ∧
    sys.requests .little (chars "c") = [.subscribe (chars "a/+")] ∧ sys.requests .little (chars "d") = [])
    (by decide +kernel)
  obtain ⟨hsome,hfds,hc,hd⟩ := of_decide_eq_true hP
  obtain ⟨srv,hsrv⟩ := Option.isSome_iff_exists.mp hsome
  obtain ⟨htopics,hwatched,-,-⟩ := registry_agrees run hsrv
  refine ⟨t,sys,srv,run,hsrv,fun fd => ?_,fun sub hsub hid topic => ?_,fun sub hsub hid topic => ?_⟩
  · have hmem : (∃ c ∈ sys.clients, c.serverFd = some fd) ↔ some fd ∈ sys.clients.map Client.serverFd :=
      List.mem_map.symm
    rw [hwatched,hmem,hfds]
    simp
  · rw [htopics sub hsub,hid,hc]
    exact Broker.Request.leaves_subscribe
  · rw [htopics sub hsub,hid,hd]
    exact Broker.Request.not_leaves_nil

end Agreement

section Delivery

/-- The server is connected to the subscriber, and the requests under its id leave a pattern accepting the topic. -/
def System.Wants (order : ByteOrder) (sys : System) (c : Client) (topic : List UInt8) : Prop :=
  c.serverFd.isSome ∧ ∃ key, AcceptsTopic key topic ∧ Broker.Request.Leaves (sys.requests order c.sub.id) key

/-- Delivery: a proper datagram is queued for each subscriber that wants it, once and behind all that was sent
before, and for nobody else. -/
theorem datagram_reaches (run : ProperRun order u w es t sys) {srv : Srv}
    (hsrv : sys.server = some srv) {dgram : Server.Datagram} (hproper : Proper (baseFds u w) t sys (.datagram dgram))
    {got : List UInt8} (hgot : dgram.received = some got) : ∃ msg out sys', Server.IsRelayed dgram.addr got msg ∧
      step order sys (.datagram dgram) = ⟨out,.ok sys'⟩ ∧ sys'.clients.length = sys.clients.length ∧
      ∀ (k : ℕ) (c : Client), sys.clients[k]? = some c → ∃ c' : Client, sys'.clients[k]? = some c' ∧
        (sys.Wants order c (cString (got.take maxTopicSize)) → c'.downstream = c.downstream.push msg) ∧
        (¬ sys.Wants order c (cString (got.take maxTopicSize)) → c'.downstream = c.downstream) := by
  have h := run_refines run
  obtain ⟨-,got',hgot',hge,hle,-,-⟩ := id hproper
  cases hgot.symm.trans hgot'
  obtain ⟨msg,hmsg,hrelayed⟩ := Server.srvMsg_relayed order dgram.addr dgram.stack hge hle
  obtain ⟨out,sys',hstep,hnext⟩ := h.datagram hproper
  have hpeers := hnext.peers_eq
  rw [Refines.relay_eq hgot hmsg] at hpeers
  have hstopped : ¬ (broker order es).stopped = true := by simp [h.stopped_some hsrv]
  simp only [Broker.State.next,if_neg hstopped,h.peers_eq,List.map_map] at hpeers
  refine ⟨msg,out,sys',hrelayed,hstep,?_,fun k c hc => ?_⟩
  · simpa using (congrArg List.length hpeers).symm
  · -- what became of the subscriber as a program
    have hk := congrArg (·[k]?) hpeers
    simp only [List.getElem?_map,hc,Option.map_some,Function.comp_apply] at hk
    obtain ⟨c',hc',hpeer⟩ := Option.map_eq_some_iff.mp hk.symm
    have hdown : c'.downstream = ((c.peer order).offer (broker order es).topics msg
        fun key => key ∈ patterns (cString (got.take maxTopicSize))).downstream :=
      congrArg Broker.Peer.downstream hpeer
    have hwants : ((c.peer order).connected ∧ ∃ topic ∈ (broker order es).topics (c.peer order).name,
        (decide (topic ∈ patterns (cString (got.take maxTopicSize))) : Bool)) ↔
        sys.Wants order c (cString (got.take maxTopicSize)) := by
      simp only [System.Wants,← mem_patterns_iff_accepts,← h.mem_topics,decide_eq_true_eq,
        and_comm (a := _ ∈ patterns _)]
      rfl
    refine ⟨c',hc',fun hw => ?_,fun hw => ?_⟩
    · rw [hdown,Broker.Peer.offer,if_pos (hwants.mpr hw)]
      rfl
    · rw [hdown,Broker.Peer.offer,if_neg (hwants.not.mpr hw)]
      rfl

/-- The text on `a/b` goes to the first subscriber, which asked for `a/+`, and not to the second one. -/
theorem datagram_reaches_example : ∃ t sys c d msg out sys', ProperRun .little 3 4 exampleEvents t sys ∧
    sys.clients = [c,d] ∧ Server.IsRelayed Server.helloDatagram.addr Server.helloBytes msg ∧
    step .little sys helloEvent = ⟨out,.ok sys'⟩ ∧
    sys'.clients.map Client.downstream = [c.downstream.push msg,d.downstream] := by
  obtain ⟨t,sys,run,hP⟩ := @exists_proper_run exampleEvents (fun sys => sys.server.isSome ∧
    sys.clients.map (fun c => (c.sub.id,c.serverFd)) = [(chars "c",some 5),(chars "d",some 6)] ∧
    sys.requests .little (chars "c") = [.subscribe (chars "a/+")] ∧ sys.requests .little (chars "d") = [])
    (by decide +kernel)
  obtain ⟨hsome,hclients,hc,hd⟩ := of_decide_eq_true hP
  obtain ⟨srv,hsrv⟩ := Option.isSome_iff_exists.mp hsome
  obtain ⟨msg,out,sys',hmsg,hstep,hlength,hreaches⟩ := datagram_reaches run hsrv (hello_proper t sys) rfl
  obtain ⟨c,rest,heq,hfirst,hrest⟩ := List.map_eq_cons_iff.mp hclients
  obtain ⟨d,rfl,hsecond⟩ := List.map_eq_singleton_iff.mp hrest
  simp only [Prod.mk.injEq] at hfirst hsecond
  have hwants : sys.Wants .little c (chars "a/b") :=
    ⟨by rw [hfirst.2]; rfl,chars "a/+",by decide +kernel,
      by rw [hfirst.1,hc]; exact Broker.Request.leaves_subscribe.mpr rfl⟩
  have hnot : ¬ sys.Wants .little d (chars "a/b") := by
    rintro ⟨-,key,-,hkey⟩
    rw [hsecond.1,hd] at hkey
    exact Broker.Request.not_leaves_nil hkey
  rw [Server.helloBytes_topic] at hreaches
  obtain ⟨c',hc',hpush,-⟩ := hreaches 0 c (by rw [heq]; rfl)
  obtain ⟨d',hd',-,hsame⟩ := hreaches 1 d (by rw [heq]; rfl)
  refine ⟨t,sys,c,d,msg,out,sys',run,heq,hmsg,hstep,?_⟩
  rw [← hpush hwants,← hsame hnot]
  refine List.ext_getElem? fun i => ?_
  match i with
  | 0 => simp [hc']
  | 1 => simp [hd']
  | i+2 => simp [hlength,heq]

end Delivery

section Settling

/-- The server has nothing to read from the subscribers it is connected to, and those that run have nothing to
handle. -/
def System.Quiet (sys : System) : Prop := ∀ client ∈ sys.clients,
  (client.serverFd.isSome → client.upstream.pending = []) ∧ (client.running → client.downstream.pending = [])

/-- The event brings nothing new to the system. -/
def Event.Drains : Event → Prop
  | .read _ _ => True
  | .handle _ _ => True
  | _ => False

lemma Event.Drains.proper {e : Event} (h : e.Drains) (base : Finset Int32) (sys : System) : Proper base t sys e := by
  cases e <;> trivial

lemma Refines.quiet_iff {b : State} (h : Refines u w order t sys b) : b.Quiet ↔ sys.Quiet := by
  rw [Broker.State.Quiet,h.peers_eq,System.Quiet]
  simp [Client.peer]

lemma broker_parted (order : ByteOrder) (es : List Event) : (broker order es).Parted := by
  rw [broker]
  generalize es.map (Event.brokerEvent order) = events
  induction events using List.reverseRecOn with
  | nil => exact fun h => absurd h (by decide)
  | append_singleton events e ih =>
    rw [List.foldl_concat]
    exact ih.next e

/-- The events of the system for those that bring the broker nothing new. -/
lemma exists_drains {events : List BrokerEvent} (h : ∀ e ∈ events, e.Drains) :
    ∃ es' : List Event, (∀ e ∈ es', e.Drains) ∧ es'.map (Event.brokerEvent order) = events := by
  induction events with
  | nil => exact ⟨[],by simp,rfl⟩
  | cons e events ih =>
    obtain ⟨es',hes',heq⟩ := ih fun e' he' => h e' (List.mem_cons_of_mem e he')
    have he := h e List.mem_cons_self
    cases e with
    | read k => exact ⟨.read k (Buffer.zeroed _) :: es',by simpa using ⟨trivial,hes'⟩,by rw [List.map_cons,heq]; rfl⟩
    | deliver k => exact ⟨.handle k (Buffer.zeroed _) :: es',by simpa using ⟨trivial,hes'⟩,
        by rw [List.map_cons,heq]; rfl⟩
    | _ => exact he.elim

/-- Settling: as soon as nothing new comes, finitely many handler calls leave nothing to read or to handle. Then the
subscribers that the server has answered run exactly as long as they are connected, and after the exit of the server
none is connected. -/
theorem system_settles (run : ProperRun order u w es t sys) :
    (∃ es' out sys', (∀ e ∈ es', e.Drains) ∧ (machine order u w).steps sys es' = ⟨out,.ok sys'⟩ ∧
      ProperRun order u w (es ++ es') (t ++ out) sys' ∧ sys'.Quiet) ∧
    (sys.Quiet → ∀ k c, sys.clients[k]? = some c → k < sys.accepted → (c.running ↔ c.serverFd.isSome)) ∧
    (sys.server = none → ∀ c ∈ sys.clients, c.serverFd = none) := by
  have h := run_refines run
  have hparted := broker_parted order es
  refine ⟨?_,fun hquiet k c hc hk => ?_,fun hnone c hc => ?_⟩
  · obtain ⟨events,hevents,-,hquiet⟩ := @Broker.State.exists_quiet _ _ _ _ _ Server.closeMsg ends _ hparted
    obtain ⟨es',hes',heq⟩ := @exists_drains order _ hevents
    have hprogress : ∀ es t s e, ProperRun order u w es t s → e.Drains → ∃ out s', step order s e = ⟨out,.ok s'⟩ ∧
        ProperRun order u w (es ++ [e]) (t ++ out) s' := fun _ _ s _ run he => run_progress run (he.proper _ s)
    obtain ⟨out,sys',hsteps,run'⟩ := GuardedRun.steps hprogress run hes'
    refine ⟨es',out,sys',hes',hsteps,run',(run_refines run').quiet_iff.mp ?_⟩
    rw [broker,List.map_append,List.foldl_append,heq]
    exact hquiet
  · have hp := h.peer_some hc
    obtain ⟨hup,hdown⟩ := hquiet c (List.mem_of_getElem? hc)
    constructor
    · intro hrun
      by_contra hconnected
      have hpeer : (c.peer order).connected = false := by simpa [Client.peer] using hconnected
      obtain ⟨msg,hmsg,-⟩ := h.sound.told_of_running hp (h.accepted_eq ▸ hk) hpeer hrun
      have hpending : (c.peer order).downstream.pending = [] := hdown hrun
      rw [hpending] at hmsg
      exact absurd hmsg List.not_mem_nil
    · intro hconnected
      exact h.sound.running_of_drained hp hconnected (by simp [Client.peer,hup hconnected])
  · have hpeer := hparted (h.stopped_none hnone) (c.peer order) (h.peers_eq ▸ List.mem_map_of_mem hc)
    simpa [Client.peer] using hpeer

/-- The text can be handled. When the server exits instead and both subscribers have handled that, neither runs. -/
theorem system_settles_example :
    (∃ t sys, ProperRun .little 3 4 (exampleEvents ++ [helloEvent]) t sys ∧ ¬ sys.Quiet ∧
      ∃ es' out sys', (∀ e ∈ es', e.Drains) ∧ (machine .little 3 4).steps sys es' = ⟨out,.ok sys'⟩ ∧ sys'.Quiet) ∧
    ∃ t sys, ProperRun .little 3 4 (exampleEvents ++ [.console (chars "exit"),.handle 0 (Buffer.zeroed _),
      .handle 1 (Buffer.zeroed _)]) t sys ∧ sys.clients.length = 2 ∧ ∀ c ∈ sys.clients, c.running = false := by
  constructor
  · obtain ⟨t,sys,run,hP⟩ := @exists_proper_run (exampleEvents ++ [helloEvent])
      (fun sys => ∃ c ∈ sys.clients, c.running ∧ c.downstream.pending ≠ []) (by decide +kernel)
    obtain ⟨c,hc,hrun,hpending⟩ := of_decide_eq_true hP
    obtain ⟨⟨es',out,sys',hes',hsteps,-,hquiet⟩,-,-⟩ := system_settles run
    exact ⟨t,sys,run,fun h => hpending ((h c hc).2 hrun),es',out,sys',hes',hsteps,hquiet⟩
  · obtain ⟨t,sys,run,hP⟩ := @exists_proper_run (exampleEvents ++ [.console (chars "exit"),
      .handle 0 (Buffer.zeroed _),.handle 1 (Buffer.zeroed _)]) (fun sys => sys.server.isNone ∧ sys.accepted = 2 ∧
      sys.clients.length = 2 ∧ ∀ c ∈ sys.clients, c.upstream.pending = [] ∧ c.downstream.pending = [])
      (by decide +kernel)
    obtain ⟨hnone,haccepted,hlength,hempty⟩ := of_decide_eq_true hP
    obtain ⟨-,hruns,hgone⟩ := system_settles run
    refine ⟨t,sys,run,hlength,fun c hc => ?_⟩
    obtain ⟨k,hk⟩ := List.mem_iff_getElem?.mp hc
    have hlt : k < sys.accepted := by
      rw [haccepted,← hlength]
      exact (List.getElem?_eq_some_iff.mp hk).1
    have hiff := hruns (fun d hd => ⟨fun _ => (hempty d hd).1,fun _ => (hempty d hd).2⟩) k c hk hlt
    rw [hgone (Option.isNone_iff_eq_none.mp hnone) c hc] at hiff
    simpa using hiff

end Settling

section Streams

/-- Both streams of every subscriber, over the whole run: it was sent exactly the messages that the broker has for
it, each once and in order, and it sent exactly the requests typed to it while it ran. -/
theorem streams_exact (run : ProperRun order u w es t sys) {k : ℕ} {c : Client}
    (hc : sys.clients[k]? = some c) :
    c.downstream.received ++ c.downstream.pending =
      Broker.State.toldBy Server.closeMsg ends k .empty (es.map (Event.brokerEvent order)) ∧
    (c.upstream.received ++ c.upstream.pending).map (request order) =
      Broker.State.askedBy Server.closeMsg ends k .empty (es.map (Event.brokerEvent order)) := by
  have hp := (run_refines run).peer_some hc
  obtain ⟨htold,hasked⟩ := Broker.State.foldl_streams hp
  rw [List.map_append]
  exact ⟨htold,hasked⟩

/-- The first subscriber was sent one text and sent one request, the second one neither. -/
theorem streams_exact_example : ∃ t sys c d, ProperRun .little 3 4 (exampleEvents ++ [helloEvent]) t sys ∧
    sys.clients = [c,d] ∧
    (c.downstream.received ++ c.downstream.pending).map (fun msg => cString msg.topic.toList) = [chars "a/b"] ∧
    (c.upstream.received ++ c.upstream.pending).map (request .little) = [.subscribe (chars "a/+")] ∧
    d.downstream.received ++ d.downstream.pending = [] ∧ d.upstream.received ++ d.upstream.pending = [] := by
  obtain ⟨t,sys,run,hP⟩ := @exists_proper_run (exampleEvents ++ [helloEvent]) (fun sys => sys.clients.length = 2)
    (by decide +kernel)
  obtain ⟨c,d,hclients⟩ := List.length_eq_two.mp (of_decide_eq_true hP)
  obtain ⟨hdown,hup⟩ := @streams_exact 3 4 .little _ t sys run 0 c (by rw [hclients]; rfl)
  obtain ⟨hdown',hup'⟩ := @streams_exact 3 4 .little _ t sys run 1 d (by rw [hclients]; rfl)
  refine ⟨t,sys,c,d,run,hclients,?_,hup.trans (by decide +kernel),hdown'.trans (by decide +kernel),?_⟩
  · rw [hdown]
    decide +kernel
  · exact List.map_eq_nil_iff.mp (hup'.trans (by decide +kernel))

end Streams

end ClientServerApp.Network.Closed
