import ClientServerApp.Network.System
import ClientServerApp.Network.Copies
import ClientServerApp.Server.Sessions

/-! What published data can do to the subscribers: nothing but be printed, as long as no datagram with
the type of a closing message or with an integer that cannot be negated gets to one. -/
namespace ClientServerApp.Network
open Traced Runs
open Server (Srv)
open Subscriber (Printable)

/-- No connected client is subscribed to the topic of a lethal datagram. -/
def Harmless (srv : Srv) : Server.Event → Prop
  | .datagram dgram => ∀ got, dgram.received = some got → Lethal got →
      ∀ p ∈ srv.subs, Server.Unwanted srv (cString (got.take maxTopicSize)) p
  | _ => True

/-- The kernel keeps its promises to the server and the published data is harmless. -/
def Peaceful (base : Finset Int32) (t : List Server.Effect) (sys : System) : Event → Prop
  | .server e => Server.Admissible base t e ∧ ∀ srv, sys.server = some srv → Harmless srv e
  | _ => True

/-- A message that leaves the subscriber running. -/
def Mild (m : Origin × SrvMsg) : Prop := m.1 = .relayed → Printable m.2 ∧ m.2.Terminated

namespace Endpoint

/-- Published data has not ended the subscriber and is not going to. -/
structure Safe (ep : Endpoint) : Prop where
  mild {m : Origin × SrvMsg} : m ∈ ep.inbox → Mild m
  not_ended : ep.status ≠ .ended .relayed

/-- The server has not ended the subscriber and is not about to. -/
structure Open (ep : Endpoint) : Prop where
  relayed {m : Origin × SrvMsg} : m ∈ ep.inbox → m.1 = .relayed
  status (origin : Origin) : ep.status ≠ .ended origin

variable {ep : Endpoint}

lemma Safe.push (h : ep.Safe) {m : Origin × SrvMsg} (hm : Mild m) : (ep.push m).Safe where
  mild := by
    intro m' hm'
    rcases List.mem_append.mp hm' with hm' | hm'
    · exact h.mild hm'
    · rwa [List.mem_singleton.mp hm']
  not_ended := h.not_ended

lemma Open.push (h : ep.Open) (msg : SrvMsg) : (ep.push (.relayed,msg)).Open where
  relayed := by
    intro m hm
    rcases List.mem_append.mp hm with hm | hm
    · exact h.relayed hm
    · rw [List.mem_singleton.mp hm]
  status := h.status

lemma Safe.command (h : ep.Safe) (host : Host) (io : Subscriber.Io) (line : Option (List UInt8)) :
    (ep.command host io line).Safe := by
  unfold Endpoint.command
  split
  · split
    · exact h
    · exact ⟨h.mild,by simp⟩
  · exact h

lemma Open.command (h : ep.Open) (host : Host) (io : Subscriber.Io) (line : Option (List UInt8)) :
    (ep.command host io line).Open := by
  unfold Endpoint.command
  split
  · split
    · exact h
    · exact ⟨h.relayed,by simp⟩
  · exact h

/-- A mild relayed message is printed, whatever the byte order of the subscriber's host. -/
lemma handleServerMsg_mild (order : ByteOrder) (host : Host) (stack : Buffer srvMsgSize) (io : Subscriber.Io)
    {msg : SrvMsg} (hmild : Mild (.relayed,msg)) :
    (Subscriber.handleServerMsg host.order host.sub ⟨stack,some (msg.bytes order),io⟩).result = .ok () := by
  obtain ⟨hprintable,hterm⟩ := hmild rfl
  -- type, topic and data are the same bytes in either byte order
  have hwhole := Subscriber.found_whole order stack msg
  have htype : (Subscriber.found host.order stack (msg.bytes order)).type = msg.type :=
    (congrArg SrvMsg.type hwhole :)
  have htopic : (Subscriber.found host.order stack (msg.bytes order)).topic = msg.topic :=
    (congrArg SrvMsg.topic hwhole :)
  have hdata : (Subscriber.found host.order stack (msg.bytes order)).data = msg.data :=
    (congrArg SrvMsg.data hwhole :)
  have hprintable' : Printable (Subscriber.found host.order stack (msg.bytes order)) :=
    ⟨by rw [htype]; exact hprintable.not_closing,by rw [htype,hdata]; exact hprintable.negatable⟩
  have hterm' : (Subscriber.found host.order stack (msg.bytes order)).Terminated :=
    ⟨by rw [htopic]; exact hterm.topic,by rw [hdata]; exact hterm.data⟩
  obtain ⟨line,hrun⟩ := @Subscriber.handleServerMsg_printable host.order host.sub
    ⟨stack,some (msg.bytes order),io⟩ _ rfl hprintable' hterm'
  rw [hrun]

lemma Safe.message (h : ep.Safe) (order : ByteOrder) (host : Host) (stack : Buffer srvMsgSize)
    (io : Subscriber.Io) : (ep.message order host stack io).Safe := by
  rcases ep with ⟨inbox,status⟩
  cases status with
  | left => exact h
  | ended origin => exact h
  | running =>
    cases inbox with
    | nil =>
      simp only [Endpoint.message]
      split
      · exact h
      · exact ⟨h.mild,by simp⟩
    | cons m inbox =>
      obtain ⟨origin,msg⟩ := m
      have hrest : ∀ m ∈ inbox, Mild m := fun m hm => h.mild (List.mem_cons_of_mem _ hm)
      simp only [Endpoint.message]
      cases origin with
      | relayed =>
        rw [handleServerMsg_mild order host stack io (h.mild List.mem_cons_self)]
        exact ⟨fun hm => hrest _ hm,by simp⟩
      | closing =>
        split
        · exact ⟨fun hm => hrest _ hm,by simp⟩
        · exact ⟨fun hm => hrest _ hm,by simp⟩

lemma Open.message (h : ep.Open) (hsafe : ep.Safe) (order : ByteOrder) (host : Host) (stack : Buffer srvMsgSize)
    (io : Subscriber.Io) : (ep.message order host stack io).Open := by
  rcases ep with ⟨inbox,status⟩
  cases status with
  | left => exact h
  | ended origin => exact h
  | running =>
    cases inbox with
    | nil =>
      simp only [Endpoint.message]
      split
      · exact h
      · exact ⟨h.relayed,by simp⟩
    | cons m inbox =>
      obtain ⟨origin,msg⟩ := m
      have horigin : origin = .relayed := h.relayed (List.mem_cons_self (a := (origin,msg)) (l := inbox))
      subst horigin
      simp only [Endpoint.message]
      rw [handleServerMsg_mild order host stack io (hsafe.mild List.mem_cons_self)]
      exact ⟨fun hm => h.relayed (List.mem_cons_of_mem _ hm),by simp⟩

end Endpoint

section Wires
variable {wires : Wires}

lemma forall_mem_modify {α : Type} {P : α → Prop} {l : List α} {f : α → α} (hl : ∀ x ∈ l, P x)
    (hf : ∀ x, P x → P (f x)) (i : ℕ) : ∀ x ∈ l.modify i f, P x := by
  intro x hx
  obtain ⟨j,hj⟩ := List.mem_iff_getElem?.mp hx
  rw [List.getElem?_modify] at hj
  obtain ⟨y,hy,rfl⟩ := Option.map_eq_some_iff.mp hj
  have hPy := hl y (List.mem_of_getElem? hy)
  by_cases hij : i = j
  · simpa [hij] using hf y hPy
  · simpa [hij] using hPy

/-- Effects that send mild messages only keep the subscribers safe. -/
lemma perform_safe {origin : Origin} {out : List Server.Effect} (hsafe : ∀ ep ∈ wires.endpoints, ep.Safe)
    (hout : ∀ fd msg, .send fd msg ∈ out → Mild (origin,msg)) :
    ∀ ep ∈ (out.foldl (perform origin) wires).endpoints, ep.Safe := by
  induction out generalizing wires with
  | nil => exact hsafe
  | cons effect out ih =>
    refine ih ?_ fun fd msg h => hout fd msg (List.mem_cons_of_mem _ h)
    cases effect with
    | accept fd =>
      intro ep hep
      rcases List.mem_append.mp hep with hep | hep
      · exact hsafe ep hep
      · rw [List.mem_singleton.mp hep]
        exact ⟨by simp,by simp⟩
    | send fd msg =>
      simp only [perform]
      cases wires.attached fd with
      | none => exact hsafe
      | some k =>
        exact forall_mem_modify hsafe (fun ep hep => hep.push (hout fd msg List.mem_cons_self)) k
    | close fd => exact hsafe
    | print line => exact hsafe

/-- The descriptor stands for a connection whose subscriber the server has not ended. -/
def Wires.Serves (wires : Wires) (fd : Int32) : Prop :=
  ∃ k ep, wires.attached fd = some k ∧ wires.endpoints[k]? = some ep ∧ ep.Open

namespace Wires.Serves
variable {fd : Int32} (h : wires.Serves fd)
include h

lemma modify {f : Endpoint → Endpoint} (hf : ∀ ep ∈ wires.endpoints, ep.Open → (f ep).Open) (i : ℕ) :
    Wires.Serves { wires with endpoints := wires.endpoints.modify i f } fd := by
  obtain ⟨k,ep,hk,hep,hopen⟩ := h
  by_cases hi : i = k
  · subst hi
    refine ⟨i,f ep,hk,?_,hf ep (List.mem_of_getElem? hep) hopen⟩
    rw [List.getElem?_modify_eq,hep]
    rfl
  · exact ⟨k,ep,hk,(List.getElem?_modify_ne f wires.endpoints hi).trans hep,hopen⟩

lemma relay (g : Int32) (msg : SrvMsg) : (perform .relayed wires (.send g msg)).Serves fd := by
  simp only [perform]
  cases wires.attached g with
  | none => exact h
  | some k => exact h.modify (fun ep _ hopen => hopen.push msg) k

lemma relays {out : List Server.Effect} (hout : ∀ effect ∈ out, ∃ g msg, effect = .send g msg) :
    (out.foldl (perform .relayed) wires).Serves fd := by
  induction out generalizing wires with
  | nil => exact h
  | cons effect out ih =>
    obtain ⟨g,msg,rfl⟩ := hout effect List.mem_cons_self
    exact ih (h.relay g msg) fun e he => hout e (List.mem_cons_of_mem _ he)

variable {g : Int32} (hne : fd ≠ g)
include hne

lemma accept (origin : Origin) : (perform origin wires (.accept g)).Serves fd := by
  obtain ⟨k,ep,hk,hep,hopen⟩ := h
  refine ⟨k,ep,(Function.update_of_ne hne _ _).trans hk,?_,hopen⟩
  exact (List.getElem?_append_left (List.getElem?_eq_some_iff.mp hep).1).trans hep

lemma close (origin : Origin) : (perform origin wires (.close g)).Serves fd := by
  obtain ⟨k,ep,hk,hep,hopen⟩ := h
  exact ⟨k,ep,(Function.update_of_ne hne _ _).trans hk,hep,hopen⟩

/-- A connection that is refused ends the new subscriber only. -/
lemma refuse (line : List UInt8) : ([.accept g,.send g Server.closeMsg,.close g,.print line].foldl
    (perform .closing) wires).Serves fd := by
  obtain ⟨k,ep,hk,hep,hopen⟩ := h
  have hlt : k < wires.endpoints.length := (List.getElem?_eq_some_iff.mp hep).1
  refine ⟨k,ep,?_,?_,hopen⟩
  · simp [perform,Function.update_of_ne hne,hk]
  · simp only [List.foldl_cons,List.foldl_nil,perform,Function.update_self]
    rw [List.getElem?_modify_ne _ _ (by omega),List.getElem?_append_left hlt,hep]

end Wires.Serves

/-- A new connection is served. -/
lemma serves_accept (origin : Origin) (wires : Wires) (g : Int32) : (perform origin wires (.accept g)).Serves g :=
  ⟨wires.endpoints.length,⟨[],.running⟩,Function.update_self g _ _,by simp [perform],⟨by simp,by simp⟩⟩

end Wires

/-- What holds in every state of a peaceful run. -/
structure Sound (u w : Int32) (t : List Server.Effect) (sys : System) : Prop where
  safe {ep : Endpoint} : ep ∈ sys.wires.endpoints → ep.Safe
  server {srv : Srv} : sys.server = some srv → Server.Inv u w t srv
  serves {srv : Srv} {fd : Int32} : sys.server = some srv → fd ∈ srv.watched → sys.wires.Serves fd

section Sound
variable {u w : Int32} {t : List Server.Effect} {order : ByteOrder}

/-- A step of the server that comes back to the loop keeps its clients served. -/
lemma serves_step {srv srv' : Srv} {e : Server.Event} {out : List Server.Effect} {wires : Wires}
    (h : Server.Inv u w t srv) (ha : Server.Admissible (Server.baseFds u w) t e)
    (hserves : ∀ fd ∈ srv.watched, wires.Serves fd) (hrun : Server.step order srv e = ⟨out,.ok srv'⟩) :
    ∀ fd ∈ srv'.watched, (out.foldl (perform (origin e)) wires).Serves fd := by
  -- the descriptor of a new connection is none of those in use
  have hapart : ∀ {g fd : Int32}, g ∉ Server.openFds (Server.baseFds u w) t → fd ∈ srv.watched → fd ≠ g := by
    rintro g fd hg hfd rfl
    exact h.not_watched hg hfd
  have haccept : ∀ {g : Int32} {line : List UInt8}, g ∉ Server.openFds (Server.baseFds u w) t →
      srv'.watched = srv.watched ++ [g] →
      ∀ fd ∈ srv'.watched, ([.accept g,.print line].foldl (perform .closing) wires).Serves fd := by
    intro g line hg hwatched fd hfd
    rw [hwatched] at hfd
    rcases List.mem_append.mp hfd with hfd | hfd
    · exact (hserves fd hfd).accept (hapart hg hfd) .closing
    · rw [List.mem_singleton.mp hfd]
      exact serves_accept .closing wires g
  cases h.transition hrun with
  | command => exact hserves
  | @datagram dgram _ hrun' =>
    have hout := Server.handleUdpMsg_sends order srv dgram
    rw [hrun'] at hout
    exact fun fd hfd => (hserves fd hfd).relays hout
  | first hconn _ _ hreg => exact haccept (ha.1 hconn.fd_ne) (congrArg Server.Registry.watched hreg)
  | again hconn _ _ _ _ hreg => exact haccept (ha.1 hconn.fd_ne) (congrArg Server.Registry.watched hreg)
  | refused hconn _ _ _ => exact fun fd hfd => (hserves fd hfd).refuse (hapart (ha.1 hconn.fd_ne) hfd) _
  | ignored => exact hserves
  | resubscribed => exact hserves
  | @disconnected _ _ _ _ sub _ _ _ _ _ _ _ _ _ hreg =>
    intro fd hfd
    have hwatched : srv'.watched = srv.watched.erase sub.sockFd := congrArg Server.Registry.watched hreg
    rw [hwatched] at hfd
    have hne : fd ≠ sub.sockFd := by
      rintro rfl
      exact h.coherent.nodup.not_mem_erase hfd
    exact (hserves fd (List.mem_of_mem_erase hfd)).close hne .closing

/-- What the server sends in a peaceful step leaves the subscribers running unless it closes the
connection. -/
lemma sends_mild {srv : Srv} {e : Server.Event} (ha : Server.Admissible (Server.baseFds u w) t e)
    (hharmless : Harmless srv e) :
    Emits (fun effect => ∀ fd msg, effect = .send fd msg → Mild (origin e,msg)) (Server.step order srv e) := by
  cases e with
  | command io line => exact fun _ _ _ _ _ horigin => nomatch horigin
  | connection conn => exact fun _ _ _ _ _ horigin => nomatch horigin
  | message fd msg => exact fun _ _ _ _ _ horigin => nomatch horigin
  | datagram dgram =>
    refine .bind ?_ fun _ => .pure _
    cases hgot : dgram.received with
    | none =>
      simp only [Server.handleUdpMsg,hgot]
      exact .halt _
    | some got =>
      simp only [Server.handleUdpMsg,hgot]
      cases hmsg : Server.srvMsg order dgram.addr (UdpMsg.ofBytes (dgram.stack.overwrite got)) got.length with
      | error err => exact .halt err
      | ok msg =>
        have hrelayed := Server.srvMsg_copy order dgram.addr dgram.stack (ha got hgot) hmsg
        rw [lift_ok_bind]
        by_cases hlethal : Lethal got
        · have hunwanted := hharmless got hgot hlethal
          exact (Server.sendToSubscribers_unwanted (hrelayed.readString_topic dgram.addr) hunwanted).mono
            fun _ habs => habs.elim
        · refine (Server.sendToSubscribers_emits srv.subs).mono ?_
          rintro effect ⟨fd,rfl⟩ fd' msg' heq -
          cases heq
          exact ⟨(printable_iff hrelayed (ha got hgot)).mpr hlethal,hrelayed.terminated dgram.addr (ha got hgot)⟩

/-- A peaceful step keeps what holds. -/
theorem Sound.step {sys sys' : System} {host : ℕ → Host} {e : Event} {out : List Server.Effect}
    (h : Sound u w t sys) (hp : Peaceful (Server.baseFds u w) t sys e)
    (hrun : step order host sys e = ⟨out,.ok sys'⟩) : Sound u w (t ++ out) sys' := by
  cases e with
  | server e =>
    obtain ⟨ha,hharmless⟩ := hp
    simp only [Network.step] at hrun
    cases hsrv : sys.server with
    | none =>
      rw [hsrv] at hrun
      cases hrun
      rw [List.append_nil]
      exact h
    | some srv =>
      rw [hsrv] at hrun
      cases hrun
      have hmild : ∀ fd msg, Server.Effect.send fd msg ∈ (Server.step order srv e).out → Mild (origin e,msg) :=
        fun fd msg hmem => sends_mild ha (hharmless srv hsrv) _ hmem fd msg rfl
      have hsafe := perform_safe (fun ep hep => h.safe hep) hmild
      -- the server goes on only when its step came back to the loop
      have hback : ∀ srv', (Server.step order srv e).result.toOption = some srv' →
          Server.step order srv e = ⟨(Server.step order srv e).out,.ok srv'⟩ := by
        intro srv' hsrv'
        cases hres : (Server.step order srv e).result with
        | error err => simp [hres,Except.toOption] at hsrv'
        | ok srv'' =>
          rw [hres] at hsrv'
          cases hsrv'
          rw [← hres]
      refine ⟨fun {ep} hep => hsafe ep hep,fun {srv'} hsrv' => ?_,fun {srv' fd} hsrv' hfd => ?_⟩
      · exact (h.server hsrv).step ha (hback srv' hsrv')
      · exact serves_step (h.server hsrv) ha (fun fd hfd => h.serves hsrv hfd) (hback srv' hsrv') fd hfd
  | command k io line =>
    cases hrun
    rw [List.append_nil]
    refine ⟨?_,h.server,fun hsrv hfd => (h.serves hsrv hfd).modify (fun ep _ hopen => hopen.command _ _ _) k⟩
    exact fun {ep} hep => forall_mem_modify (fun ep hep => h.safe hep) (fun ep hep => hep.command _ _ _) k ep hep
  | message k stack io =>
    cases hrun
    rw [List.append_nil]
    refine ⟨?_,h.server,fun hsrv hfd => (h.serves hsrv hfd).modify
      (fun ep hep hopen => hopen.message (h.safe hep) _ _ _ _) k⟩
    exact fun {ep} hep => forall_mem_modify (fun ep hep => h.safe hep) (fun ep hep => hep.message _ _ _ _) k ep hep

theorem sound_init (order : ByteOrder) (host : ℕ → Host) : Sound u w [] (machine order host u w).init where
  safe := by simp [machine]
  server := by
    rintro srv hsrv
    cases hsrv
    exact Server.inv_init
  serves := by
    rintro srv fd hsrv hfd
    cases hsrv
    simp [Server.watched_init] at hfd

end Sound

section Published
variable {u w : Int32} {order : ByteOrder} {host : ℕ → Host} {admits : List Server.Effect → System → Event → Prop}
  {es : List Event} {t out : List Server.Effect} {srv srv' : Srv} {wires : Wires}

end Published

end ClientServerApp.Network
