import ClientServerApp.Network.Brokered
import ClientServerApp.Server.Relay

/-! The handler calls of the server in the whole system, and the system as a broker over all interleavings. -/
namespace ClientServerApp.Server
open Traced
variable (order : ByteOrder) {text : List UInt8}

lemma step_exit {u w : Int32} {srv : Srv} (h : srv.Sound u w) (hexit : tokens text = [chars "exit"]) :
    step order srv (.command .ok (some text)) = ⟨farewells u w (connected srv.heap.reverse),.error .exit⟩ := by
  rw [step,handleStdinMsg,hexit]
  exact stopProgram_eq h

lemma step_other (srv : Srv) (hexit : tokens text ≠ [chars "exit"]) :
    ∃ line, step order srv (.command .ok (some text)) = ⟨[.print line],.ok srv⟩ := by
  rw [step,handleStdinMsg]
  cases htokens : tokens text with
  | nil => exact ⟨_,rfl⟩
  | cons command arguments =>
    by_cases hcommand : command = chars "exit"
    · have harguments : arguments ≠ [] := by
        rintro rfl
        exact hexit (by rw [htokens,hcommand])
      simp only [if_pos hcommand,executeExitCmd,if_pos harguments]
      exact ⟨_,rfl⟩
    · simp only [if_neg hcommand]
      exact ⟨_,rfl⟩

end ClientServerApp.Server

namespace ClientServerApp.Network.Closed
open Traced Runs SessionTable
open Server (Srv Inv baseFds openFds)

/-- What an effect of the server is to one of its connections. -/
def Client.notice (client : Client) : Server.Effect → Client
  | .send fd msg => client.hear fd msg
  | .close fd => client.lose fd
  | _ => client

lemma perform_eq (sys : System) {out : List Server.Effect} (hout : ∀ fd, .accept fd ∉ out) :
    out.foldl perform sys = { sys with clients := sys.clients.map fun c => out.foldl Client.notice c } := by
  induction out generalizing sys with
  | nil => simp
  | cons e out ih =>
    have hrest : ∀ fd, .accept fd ∉ out := fun fd hmem => hout fd (List.mem_cons_of_mem e hmem)
    rw [List.foldl_cons,ih _ hrest]
    cases e with
    | accept fd => exact absurd List.mem_cons_self (hout fd)
    | send fd msg =>
      simp only [perform,List.map_map]
      rfl
    | close fd =>
      simp only [perform,List.map_map]
      rfl
    | print line => rfl

lemma serve_ok {order : ByteOrder} (sys : System) {srv srv' : Srv} {e : Server.Event} {out : List Server.Effect}
    (h : Server.step order srv e = ⟨out,.ok srv'⟩) :
    serve order sys srv e = ⟨out,.ok { out.foldl perform sys with server := some srv' }⟩ := by
  simp only [serve,h]

lemma serve_exit {order : ByteOrder} (sys : System) {srv : Srv} {e : Server.Event} {out : List Server.Effect}
    (h : Server.step order srv e = ⟨out,.error .exit⟩) :
    serve order sys srv e = ⟨out,.ok { out.foldl perform sys with server := none }⟩ := by
  simp only [serve,h]

lemma hello_eq (client : Client) : client.hello = client.sub.id := List.append_nil _

namespace Refines
variable {u w : Int32} {order : ByteOrder} {t : List Server.Effect} {sys : System} {b : State}
  (h : Refines u w order t sys b)
include h

lemma stopped_some {srv : Srv} (hsrv : sys.server = some srv) : b.stopped = false := by
  rw [h.stopped_eq,hsrv]
  rfl

lemma stopped_none (hsrv : sys.server = none) : b.stopped = true := by
  rw [h.stopped_eq,hsrv]
  rfl

lemma sound_next {e : BrokerEvent} (he : Broker.State.Harmless ends e) :
    (b.next Server.closeMsg ends e).Sound ends :=
  h.sound.next rfl he

section Accept
variable {srv : Srv} {T : Table (List UInt8) Int32 (List UInt8)} (hsrv : sys.server = some srv)
  (hT : srv.registry.Represents T) (htold : Told T sys.clients b.topics)
include hsrv hT htold

/-- A descriptor that is not open is nobody's. -/
lemma serverFd_ne {fd : Int32} (hnew : fd ∉ openFds (baseFds u w) t) {client : Client}
    (hc : client ∈ sys.clients) : client.serverFd ≠ some fd := by
  intro hfd
  refine hnew ((Server.openFds_iff_holds (h.inv hsrv) hT fd).mpr (.inr ⟨client.sub.id,?_⟩))
  rw [htold.holds,← hfd]
  exact List.mem_map_of_mem hc

/-- No two connections have one descriptor. -/
lemma index_unique {k l : ℕ} {c d : Client} {fd : Int32} (hk : sys.clients[k]? = some c)
    (hl : sys.clients[l]? = some d) (hc : c.serverFd = some fd) (hd : d.serverFd = some fd) : k = l := by
  have hholds : T.Holds c.sub.id fd := by
    rw [htold.holds,← hc]
    exact List.mem_map_of_mem (List.mem_of_getElem? hk)
  have hholds' : T.Holds d.sub.id fd := by
    rw [htold.holds,← hd]
    exact List.mem_map_of_mem (List.mem_of_getElem? hl)
  have hid : d.sub.id = c.sub.id := hT.exclusive (h.inv hsrv).coherent _ _ fd hholds' hholds
  refine h.sound.unique (h.peer_some hk) (h.peer_some hl) hid ?_ ?_
  · simp [Client.peer,hc]
  · simp [Client.peer,hd]

omit hsrv hT in
/-- The service is connected to a program of a name exactly when somebody holds a connection under the id. -/
lemma connected_iff (id : List UInt8) : (∃ q ∈ b.peers, q.connected ∧ q.name = id) ↔ ∃ g, T.Holds id g := by
  rw [h.peers_eq]
  constructor
  · rintro ⟨q,hq,hconnected,rfl⟩
    obtain ⟨c,hc,rfl⟩ := List.mem_map.mp hq
    obtain ⟨g,hg⟩ := Option.isSome_iff_exists.mp hconnected
    refine ⟨g,(htold.holds _ g).mpr ?_⟩
    rw [← hg]
    exact List.mem_map_of_mem hc
  · rintro ⟨g,hg⟩
    obtain ⟨c,hc,hview⟩ := List.mem_map.mp ((htold.holds id g).mp hg)
    obtain ⟨hid,hfd⟩ := Prod.mk.inj hview
    exact ⟨c.peer order,List.mem_map_of_mem hc,by simp [Client.peer,hfd],hid⟩

end Accept

/-- The connection next in line was answered. -/
lemma answer {srv srv' : Srv} {client' : Client} {b' : State} {out : List Server.Effect}
    {T : Table (List UInt8) Int32 (List UInt8)} (hsrv : sys.server = some srv) (hclient' : client'.Sound order)
    (hinv : Inv u w (t ++ out) srv') (hrep : srv'.registry.Represents T)
    (htold : Told T (sys.clients.set sys.accepted client') b.topics) (hb' : b'.Sound ends)
    (hnext : b' = { b with peers := b.peers.set b.accepted (client'.peer order), accepted := b.accepted+1 }) :
    Refines u w order (t ++ out) ⟨some srv',sys.clients.set sys.accepted client',sys.accepted+1⟩ b' where
  peers_eq := by
    rw [hnext,List.map_set,← h.peers_eq,← h.accepted_eq]
  accepted_eq := by
    rw [hnext,h.accepted_eq]
  stopped_eq := by
    rw [hnext]
    exact h.stopped_some hsrv
  sound := hb'
  clients hc := by
    rcases List.mem_or_eq_of_mem_set hc with hc | rfl
    · exact h.clients hc
    · exact hclient'
  inv hs := by
    cases hs
    exact hinv
  told hs := by
    cases hs
    rw [hnext]
    exact ⟨T,hrep,htold⟩

omit h in
/-- The effects of a refusal reach the new subscriber only. -/
lemma refuse_perform {fd : Int32} (hother : ∀ c ∈ sys.clients, c.serverFd ≠ some fd) {client : Client}
    (hk : sys.clients[sys.accepted]? = some client) (hnone : client.serverFd = none) (line : List UInt8) :
    ([.accept fd,.send fd Server.closeMsg,.close fd,.print line].foldl perform sys).clients =
      sys.clients.set sys.accepted { client with downstream := client.downstream.push Server.closeMsg } := by
  have hhear : ∀ c ∈ sys.clients, c.hear fd Server.closeMsg = c := fun c hc => if_neg (hother c hc)
  have hlose : ∀ c ∈ sys.clients, c.lose fd = c := fun c hc => if_neg (hother c hc)
  change ((sys.clients.modify sys.accepted ({ · with serverFd := some fd })).map (·.hear fd Server.closeMsg)).map
    (·.lose fd) = _
  rw [modify_eq_set hk,List.map_set,List.map_congr_left hhear,List.map_id',List.map_set,List.map_congr_left hlose,
    List.map_id']
  simp only [Client.hear,Client.lose,if_pos]
  rw [← hnone]

/-- The server accepts a connection. -/
lemma accept {fd : Int32} {addr : Server.SockAddr} {stack : Buffer (maxIdSize+1)}
    (hproper : Proper (baseFds u w) t sys (.accept fd addr stack)) : ∃ out sys',
    step order sys (.accept fd addr stack) = ⟨out,.ok sys'⟩ ∧
      Refines u w order (t ++ out) sys' (b.next Server.closeMsg ends .accept) := by
  obtain ⟨hne,hnew,-⟩ := hproper
  have hsound := h.sound_next (e := .accept) trivial
  cases hsrv : sys.server with
  | none =>
    refine ⟨[],sys,by simp only [step,hsrv,pure_eq],?_⟩
    rw [List.append_nil,Broker.State.next,if_pos (h.stopped_none hsrv)]
    exact h
  | some srv =>
    have hstopped : ¬ b.stopped = true := by simp [h.stopped_some hsrv]
    rw [Broker.State.next,if_neg hstopped] at hsound ⊢
    cases hk : sys.clients[sys.accepted]? with
    | none =>
      have hp : b.peers[b.accepted]? = none := by rw [h.peers_eq,h.accepted_eq,List.getElem?_map,hk]; rfl
      refine ⟨[],sys,by simp only [step,hsrv,hk,pure_eq],?_⟩
      rw [hp,List.append_nil]
      exact h
    | some client =>
      have hp : b.peers[b.accepted]? = some (client.peer order) := by
        rw [h.accepted_eq]
        exact h.peer_some hk
      rw [hp] at hsound ⊢
      obtain ⟨T,hT,htold⟩ := h.told hsrv
      have hclient := h.clients (List.mem_of_getElem? hk)
      have hnone : client.serverFd = none := by
        have hwaiting := (h.sound.waiting hp (le_refl _)).1
        simpa [Client.peer] using hwaiting
      obtain ⟨out,srv',hrun,hinv,hrep,hcases⟩ := connection_cases order (h.inv hsrv) hT
        (show Server.Orderly order (baseFds u w) t (.connection ⟨fd,addr,false,stack,some client.hello,.ok⟩) from
          ⟨hne,hnew,rfl,rfl,_,rfl,by rw [hello_eq]; exact hclient.fits⟩) rfl
      rw [hello_eq,cString_eq_self hclient.terminated] at hcases hrep
      have htaken := h.connected_iff htold (client.peer order).name
      have hstep : step order sys (.accept fd addr stack) =
          ⟨out,.ok { out.foldl perform sys with server := some srv' }⟩ := by
        simp only [step,hsrv,hk]
        exact serve_ok sys hrun
      rcases hcases with ⟨hfree,line,rfl⟩ | ⟨⟨g,hheld⟩,line,rfl⟩
      · -- nobody holds a connection under the id
        refine ⟨_,⟨some srv',sys.clients.set sys.accepted { client with serverFd := some fd },sys.accepted+1⟩,?_,
          h.answer hsrv ⟨hclient.fits,hclient.terminated,hclient.requests,hclient.messages⟩ hinv hrep
            (htold.connect hk hnone hfree fd) hsound ?_⟩
        · rw [hstep,← modify_eq_set hk ({ · with serverFd := some fd })]
          rfl
        · simp only [Broker.State.accept]
          rw [if_neg (htaken.not.mpr (not_exists.mpr hfree)),modify_eq_set hp]
          rfl
      · rw [Table.next_connect_held hheld] at hrep
        have hother : ∀ c ∈ sys.clients, c.serverFd ≠ some fd := fun c hc => h.serverFd_ne hsrv hT htold hnew hc
        refine ⟨_,⟨some srv',sys.clients.set sys.accepted
            { client with downstream := client.downstream.push Server.closeMsg },sys.accepted+1⟩,?_,
          h.answer hsrv ⟨hclient.fits,hclient.terminated,hclient.requests,fun hm he => ?_⟩ hinv hrep
            (htold.set hk rfl) hsound ?_⟩
        · rw [hstep,← refuse_perform hother hk hnone line]
          rfl
        · rcases List.mem_append.mp hm with hm | hm
          · exact hclient.messages hm he
          · rw [List.mem_singleton.mp hm] at he
            exact absurd he (by decide)
        · simp only [Broker.State.accept]
          rw [if_pos (htaken.mpr ⟨g,hheld⟩),modify_eq_set hp]
          rfl

omit h in
/-- A closing request makes the server give up that connection only. -/
lemma read_perform {k : ℕ} {client : Client} {fd : Int32}
    (hfd : client.serverFd = some fd) (hunique : ∀ l c, sys.clients[l]? = some c → c.serverFd = some fd → l = k)
    {r : Request} {out : List Server.Effect}
    (hout : if r = .close then ∃ line, out = [.close fd,.print line] else out = []) :
    out.foldl perform { sys with clients := sys.clients.set k { client with upstream := client.upstream.take } } =
      { sys with clients := sys.clients.set k { client with
          upstream := client.upstream.take, serverFd := if r = .close then none else some fd } } := by
  by_cases hclose : r = .close
  · rw [if_pos hclose] at hout
    obtain ⟨line,rfl⟩ := hout
    have hlose : ∀ i c, sys.clients[i]? = some c → i ≠ k → c.lose fd = c := fun i c hc hi =>
      if_neg fun hcfd => hi (hunique i c hc hcfd)
    simp only [List.foldl_cons,List.foldl_nil,perform,List.map_set,if_pos hclose]
    rw [set_map_eq hlose]
    simp only [Client.lose,hfd,if_pos]
  · rw [if_neg hclose] at hout
    rw [hout,if_neg hclose,← hfd]
    rfl

/-- The server reads the next request of a subscriber. -/
lemma read (k : ℕ) (stack : Buffer subMsgSize) : ∃ out sys', step order sys (.read k stack) = ⟨out,.ok sys'⟩ ∧
    Refines u w order (t ++ out) sys' (b.next Server.closeMsg ends (.read k)) := by
  have hsound := h.sound_next (e := .read k) trivial
  -- in the cases without a request nothing happens on either side
  have hidle : step order sys (.read k stack) = pure sys → b.next Server.closeMsg ends (.read k) = b →
      ∃ out sys', step order sys (.read k stack) = ⟨out,.ok sys'⟩ ∧
        Refines u w order (t ++ out) sys' (b.next Server.closeMsg ends (.read k)) := by
    intro hstep hnext
    refine ⟨[],sys,hstep,?_⟩
    rwa [hnext,List.append_nil]
  cases hsrv : sys.server with
  | none =>
    refine hidle (by simp only [step,hsrv]) ?_
    rw [Broker.State.next,if_pos (h.stopped_none hsrv)]
  | some srv =>
    have hstopped : ¬ b.stopped = true := by simp [h.stopped_some hsrv]
    rw [Broker.State.next,if_neg hstopped] at hidle hsound ⊢
    cases hk : sys.clients[k]? with
    | none =>
      have hp : b.peers[k]? = none := by rw [h.peers_eq,List.getElem?_map,hk]; rfl
      exact hidle (by simp only [step,hsrv,hk]) (by rw [hp])
    | some client =>
      have hp := h.peer_some hk
      rw [hp] at hidle hsound ⊢
      cases hfd : client.serverFd with
      | none =>
        have hconnected : ¬ (client.peer order).connected = true := by simp [Client.peer,hfd]
        exact hidle (by simp only [step,hsrv,hk,hfd]) (if_neg hconnected)
      | some fd =>
        have hconnected : (client.peer order).connected = true := by simp [Client.peer,hfd]
        simp only [if_pos hconnected] at hidle hsound ⊢
        cases hpending : client.upstream.pending with
        | nil =>
          have hpending' : (client.peer order).upstream.pending = [] := by simp [Client.peer,hpending]
          exact hidle (by simp only [step,hsrv,hk,hfd,hpending]) (by rw [hpending'])
        | cons bytes rest =>
          have hclient := h.clients (List.mem_of_getElem? hk)
          obtain ⟨r,hr,rfl⟩ := hclient.requests (by rw [hpending]; exact List.mem_cons_self)
          have hpending' : (client.peer order).upstream.pending = r :: rest.map (request order) := by
            simp [Client.peer,hpending,request_bytes order hr]
          rw [hpending'] at hsound ⊢
          obtain ⟨T,hT,htold⟩ := h.told hsrv
          have hholds : T.Holds client.sub.id fd := by
            rw [htold.holds,← hfd]
            exact List.mem_map_of_mem (List.mem_of_getElem? hk)
          have hunique : ∀ l c, sys.clients[l]? = some c → c.serverFd = some fd → l = k := fun l c hl hc =>
            h.index_unique hsrv hT htold hl hk hc hfd
          obtain ⟨out,srv',hrun,hinv,hrep,hout⟩ := message_cases (h.inv hsrv) hT hholds stack hr
          have hserved := read_perform hfd hunique hout
          refine ⟨out,⟨some srv',sys.clients.set k { client with
            upstream := client.upstream.take, serverFd := if r = .close then none else some fd },sys.accepted⟩,?_,?_⟩
          · have hstep : step order sys (.read k stack) = serve order
                { sys with clients := sys.clients.set k { client with upstream := client.upstream.take } } srv
                (.message fd ⟨stack,some ((requestMsg r).bytes order),.ok⟩) := by
              simp only [step,hsrv,hk,hfd,hpending]
            rw [hstep,serve_ok _ hrun,hserved]
          · refine ⟨?_,h.accepted_eq,h.stopped_some hsrv,hsound,fun hc => ?_,fun hs => ?_,fun hs => ?_⟩
            · simp only [Broker.State.execute]
              rw [List.map_set,← h.peers_eq,modify_eq_set hp]
              congr 1
              by_cases hclose : r = .close <;> simp [Client.peer,Broker.Peer.serve,hclose]
            · rcases List.mem_or_eq_of_mem_set hc with hc | rfl
              · exact h.clients hc
              · exact ⟨hclient.fits,hclient.terminated,fun hb => hclient.requests (mem_take hb),hclient.messages⟩
            · cases hs
              exact hinv
            · cases hs
              exact ⟨_,hrep,htold.request hk (hT.exclusive (h.inv hsrv).coherent) hfd hunique r rfl⟩

end Refines

section Notices
variable {client : Client} {out : List Server.Effect}

/-- What the server does on other connections is not noticed. -/
lemma notice_none (hnone : client.serverFd = none) : out.foldl Client.notice client = client := by
  induction out with
  | nil => rfl
  | cons e out ih =>
    have hsame : client.notice e = client := by
      cases e with
      | accept fd => rfl
      | send fd msg => exact if_neg (by simp [hnone])
      | close fd => exact if_neg (by simp [hnone])
      | print line => rfl
    rw [List.foldl_cons,hsame,ih]

lemma notice_sends {fd : Int32} (hfd : client.serverFd = some fd) {msg : SrvMsg}
    (hout : ∀ e ∈ out, ∃ g, e = .send g msg) : out.foldl Client.notice client = { client with
      downstream := (Channel.push msg)^[out.count (.send fd msg)] client.downstream } := by
  induction out generalizing client with
  | nil => rfl
  | cons e out ih =>
    obtain ⟨g,rfl⟩ := hout e List.mem_cons_self
    have hrest : ∀ e ∈ out, ∃ g, e = .send g msg := fun e he => hout e (List.mem_cons_of_mem _ he)
    rw [List.foldl_cons]
    by_cases hg : fd = g
    · subst hg
      have hhear : client.notice (.send fd msg) = { client with downstream := client.downstream.push msg } :=
        if_pos hfd
      rw [hhear,@ih { client with downstream := client.downstream.push msg } hfd hrest,List.count_cons_self,
        Function.iterate_succ_apply]
    · have hhear : client.notice (.send g msg) = client := if_neg (by simp [hfd,hg])
      have hne : Server.Effect.send g msg ≠ .send fd msg := fun he => hg (Server.Effect.send.inj he).1.symm
      rw [hhear,ih hfd hrest,List.count_cons_of_ne hne]

/-- The farewell to a connection reaches it, once. -/
lemma notice_farewells {fds : List Int32} {fd : Int32} (hfd : client.serverFd = some fd) (hmem : fd ∈ fds) :
    (fds.flatMap Server.farewell).foldl Client.notice client =
      { client with downstream := client.downstream.push Server.closeMsg, serverFd := none } := by
  induction fds with
  | nil => exact absurd hmem List.not_mem_nil
  | cons g fds ih =>
    rw [List.flatMap_cons,List.foldl_append]
    by_cases hg : fd = g
    · subst hg
      have hbye : (Server.farewell fd).foldl Client.notice client =
          { client with downstream := client.downstream.push Server.closeMsg, serverFd := none } := by
        simp [Server.farewell,Client.notice,Client.hear,Client.lose,hfd]
      rw [hbye,notice_none rfl]
    · have hsame : (Server.farewell g).foldl Client.notice client = client := by
        simp [Server.farewell,Client.notice,Client.hear,Client.lose,hfd,hg]
      rw [hsame]
      exact ih ((List.mem_cons.mp hmem).resolve_left hg)

end Notices

namespace Refines
variable {u w : Int32} {order : ByteOrder} {t : List Server.Effect} {sys : System} {b : State}
  (h : Refines u w order t sys b)
include h

omit h in
/-- A connected subscriber wants what its id has a matching topic for. -/
lemma wants_iff {srv : Srv} {T : Table (List UInt8) Int32 (List UInt8)} (hinv : Inv u w t srv)
    (hT : srv.registry.Represents T) (htold : Told T sys.clients b.topics) {client : Client}
    (hc : client ∈ sys.clients) {fd : Int32} (hfd : client.serverFd = some fd) (topic : List UInt8) :
    ∃ (p : Server.Ptr) (sub : Server.Sub), srv.heap[p]? = some sub ∧ sub.sockFd = fd ∧ fd ≠ -1 ∧
      (sub.wants topic ↔ ∃ key ∈ b.topics client.sub.id, key ∈ patterns topic) := by
  have hholds : T.Holds client.sub.id fd := by
    rw [htold.holds,← hfd]
    exact List.mem_map_of_mem hc
  obtain ⟨s,hs,hsfd⟩ := hholds
  obtain ⟨sub,hclient,hsession⟩ := hT.client_some hs
  obtain ⟨p,-,hp,-⟩ := hinv.coherent.getElem?_of_client hclient
  obtain ⟨hne,hsock⟩ := (hsession.fd_iff fd).mp hsfd
  refine ⟨p,sub,hp,hsock,hne,?_⟩
  have htopics : s.topics = b.topics client.sub.id := by
    rw [← htold.topics_eq,hs]
    rfl
  rw [Server.Sub.wants,Bool.and_eq_true,List.any_eq_true,← htopics]
  constructor
  · rintro ⟨-,key,hmem,hkey⟩
    exact ⟨key,(hsession.topics_iff key).mpr hkey,hmem⟩
  · rintro ⟨key,hkey,hmem⟩
    exact ⟨by simp [hsock,hne],key,hmem,(hsession.topics_iff key).mp hkey⟩

/-- A delivery reaches the connected subscribers that want it, each once. -/
lemma notice_deliveries {srv : Srv} {T : Table (List UInt8) Int32 (List UInt8)} (hsrv : sys.server = some srv)
    (hT : srv.registry.Represents T) (htold : Told T sys.clients b.topics) {c : Client} (hc : c ∈ sys.clients)
    (msg : SrvMsg) (topic : List UInt8) :
    ((Server.deliveries srv.heap msg topic).foldl Client.notice c).peer order =
        (c.peer order).offer b.topics msg (fun key => key ∈ patterns topic) ∧
      (c.Sound order → Subscriber.Printable msg ∧ msg.Terminated →
        ((Server.deliveries srv.heap msg topic).foldl Client.notice c).Sound order) ∧
      ((Server.deliveries srv.heap msg topic).foldl Client.notice c).view = c.view := by
  have hinv := h.inv hsrv
  cases hfd : c.serverFd with
  | none =>
    rw [notice_none hfd]
    have hconnected : (c.peer order).connected = false := by simp [Client.peer,hfd]
    refine ⟨?_,fun hsound _ => hsound,rfl⟩
    simp [Broker.Peer.offer,hconnected]
  | some fd =>
    have hsends : ∀ e ∈ Server.deliveries srv.heap msg topic, ∃ g, e = .send g msg := by
      intro e he
      obtain ⟨sub,-,-,rfl⟩ := (Server.mem_deliveries msg _).mp he
      exact ⟨_,rfl⟩
    obtain ⟨p,sub,hp,rfl,hne,hwants⟩ := wants_iff hinv hT htold hc hfd topic
    have hcount := Server.count_deliveries hinv.coherent msg topic hp hne
    have hconnected : (c.peer order).connected = true := by simp [Client.peer,hfd]
    rw [notice_sends hfd hsends]
    change List.count _ (Server.deliveries srv.heap msg topic) = _ at hcount
    rw [hcount]
    by_cases hw : sub.wants topic
    · have hoffer : (c.peer order).offer b.topics msg (fun key => key ∈ patterns topic) =
        (c.peer order).tell msg := by
        refine if_pos ⟨hconnected,?_⟩
        simpa [Client.peer] using hwants.mp hw
      rw [if_pos hw,hoffer]
      refine ⟨rfl,fun hsound hterm => ⟨hsound.fits,hsound.terminated,hsound.requests,fun hm he => ?_⟩,rfl⟩
      rcases List.mem_append.mp hm with hm | hm
      · exact hsound.messages hm he
      · rwa [List.mem_singleton.mp hm]
    · have hoffer : (c.peer order).offer b.topics msg (fun key => key ∈ patterns topic) = c.peer order := by
        refine if_neg fun hand => hw (hwants.mpr ?_)
        simpa [Client.peer] using hand.2
      rw [if_neg hw,hoffer]
      exact ⟨rfl,fun hsound _ => hsound,rfl⟩

omit h in
lemma relay_eq {dgram : Server.Datagram} {got : List UInt8} {msg : SrvMsg} (hgot : dgram.received = some got)
    (hmsg : Server.srvMsg order dgram.addr (UdpMsg.ofBytes (dgram.stack.overwrite got)) got.length = .ok msg) :
    relay order dgram = .publish msg fun key => key ∈ patterns (cString (got.take maxTopicSize)) := by
  simp only [relay,hgot,hmsg]

/-- The server relays a datagram. -/
lemma datagram {dgram : Server.Datagram} (hproper : Proper (baseFds u w) t sys (.datagram dgram)) : ∃ out sys',
    step order sys (.datagram dgram) = ⟨out,.ok sys'⟩ ∧
      Refines u w order (t ++ out) sys' (b.next Server.closeMsg ends (relay order dgram)) := by
  obtain ⟨hio,got,hgot,hge,hle,htopic,hlethal⟩ := hproper
  obtain ⟨msg,hmsg,hrelayed⟩ := Server.srvMsg_relayed order dgram.addr dgram.stack hge hle
  have hevent := relay_eq hgot hmsg
  have hprintable := (printable_iff hrelayed hle).mpr hlethal
  have hends : ends msg = false := decide_eq_false hprintable.not_closing
  have hsound := h.sound_next (e := relay order dgram) (by rw [hevent]; exact hends)
  rw [hevent] at hsound ⊢
  cases hsrv : sys.server with
  | none =>
    refine ⟨[],sys,by simp only [step,hsrv,pure_eq],?_⟩
    rw [List.append_nil,Broker.State.next,if_pos (h.stopped_none hsrv)]
    exact h
  | some srv =>
    have hstopped : ¬ b.stopped = true := by simp [h.stopped_some hsrv]
    rw [Broker.State.next,if_neg hstopped] at hsound ⊢
    obtain ⟨T,hT,htold⟩ := h.told hsrv
    have hinv := h.inv hsrv
    obtain ⟨msg',hrelayed',hrun⟩ := Server.step_datagram hinv.sound order hio hgot hge hle htopic
    rw [hrelayed'.unique hrelayed] at hrun
    have hsends : ∀ e ∈ Server.deliveries srv.heap msg (cString (got.take maxTopicSize)), ∃ g, e = .send g msg := by
      intro e he
      obtain ⟨sub,-,-,rfl⟩ := (Server.mem_deliveries msg _).mp he
      exact ⟨_,rfl⟩
    have hnoAccept : ∀ fd, .accept fd ∉ Server.deliveries srv.heap msg (cString (got.take maxTopicSize)) := by
      intro fd hmem
      obtain ⟨g,hg⟩ := hsends _ hmem
      cases hg
    have hnotice := fun c hc => h.notice_deliveries hsrv hT htold (c := c) hc msg (cString (got.take maxTopicSize))
    refine ⟨Server.deliveries srv.heap msg (cString (got.take maxTopicSize)),⟨some srv,sys.clients.map fun c =>
      (Server.deliveries srv.heap msg (cString (got.take maxTopicSize))).foldl Client.notice c,sys.accepted⟩,?_,?_,
      h.accepted_eq,h.stopped_some hsrv,hsound,fun hc => ?_,fun hs => ?_,fun hs => ?_⟩
    · simp only [step,hsrv]
      rw [serve_ok sys hrun,perform_eq sys hnoAccept]
    · rw [List.map_map,h.peers_eq,List.map_map]
      exact List.map_congr_left fun c hc => (hnotice c hc).1.symm
    · obtain ⟨c,hmem,rfl⟩ := List.mem_map.mp hc
      exact (hnotice c hmem).2.1 (h.clients hmem) ⟨hprintable,hrelayed.terminated dgram.addr hle⟩
    · cases hs
      exact hinv.step (e := .datagram dgram) (fun got' hgot' => by cases hgot.symm.trans hgot'; exact hle) hrun
    · cases hs
      refine ⟨T,hT,fun id fd => ?_,htold.topics_eq⟩
      rw [htold.holds,List.map_map]
      change _ ↔ (id,some fd) ∈ sys.clients.map fun c => Client.view (_)
      rw [List.map_congr_left fun c hc => (hnotice c hc).2.2]

/-- The exit command closes what subscribers are connected to. -/
lemma notice_stop {srv : Srv} {T : Table (List UInt8) Int32 (List UInt8)} (hsrv : sys.server = some srv)
    (hT : srv.registry.Represents T) (htold : Told T sys.clients b.topics) {c : Client} (hc : c ∈ sys.clients) :
    (Server.farewells u w (Server.connected srv.heap.reverse)).foldl Client.notice c =
      if c.serverFd.isSome then { c with downstream := c.downstream.push Server.closeMsg, serverFd := none }
        else c := by
  cases hfd : c.serverFd with
  | none => exact notice_none hfd
  | some fd =>
    obtain ⟨p,sub,hp,hsock,hne,-⟩ := wants_iff (h.inv hsrv) hT htold hc hfd []
    have hmem : fd ∈ Server.connected srv.heap.reverse :=
      Server.mem_connected.mpr ⟨sub,List.mem_reverse.mpr (List.mem_of_getElem? hp),hsock,hne⟩
    rw [Server.farewells,List.foldl_append,notice_farewells hfd hmem]
    exact notice_none rfl

/-- A line is typed to the server. -/
lemma console (text : List UInt8) : ∃ out sys', step order sys (.console text) = ⟨out,.ok sys'⟩ ∧
    Refines u w order (t ++ out) sys'
      (b.next Server.closeMsg ends (if tokens text = [chars "exit"] then .stop else .idle)) := by
  have hsound : (b.next Server.closeMsg ends
      (if tokens text = [chars "exit"] then .stop else .idle)).Sound ends := by
    refine h.sound_next ?_
    split_ifs <;> trivial
  cases hsrv : sys.server with
  | none =>
    refine ⟨[],sys,by simp only [step,hsrv,pure_eq],?_⟩
    have hnext : b.next Server.closeMsg ends (if tokens text = [chars "exit"] then .stop else .idle) = b := by
      split_ifs
      · exact if_pos (h.stopped_none hsrv)
      · rfl
    rwa [hnext,List.append_nil]
  | some srv =>
    have hstep : step order sys (.console text) = serve order sys srv (.command .ok (some text)) := by
      simp only [step,hsrv]
    by_cases hexit : tokens text = [chars "exit"]
    · rw [if_pos hexit] at hsound ⊢
      obtain ⟨T,hT,htold⟩ := h.told hsrv
      have hstopped : ¬ b.stopped = true := by simp [h.stopped_some hsrv]
      have hrun := Server.step_exit order (h.inv hsrv).sound hexit
      have hnoAccept : ∀ fd, .accept fd ∉ Server.farewells u w (Server.connected srv.heap.reverse) := by
        intro fd hmem
        rcases List.mem_append.mp hmem with hmem | hmem
        · obtain ⟨g,-,heq | heq⟩ := (Server.mem_farewells _).mp hmem <;> cases heq
        · simp at hmem
      rw [hstep,serve_exit sys hrun,perform_eq sys hnoAccept]
      rw [Broker.State.next,if_neg hstopped] at hsound ⊢
      have hnotice := fun c hc => h.notice_stop hsrv hT htold (c := c) hc
      rw [List.map_congr_left hnotice]
      refine ⟨_,_,rfl,?_,h.accepted_eq,rfl,hsound,fun hc => ?_,fun hs => ?_,fun hs => ?_⟩
      · simp only
        rw [h.peers_eq,List.map_map,List.map_map]
        refine List.map_congr_left fun c hc => ?_
        simp only [Function.comp_apply,Broker.Peer.dismiss]
        by_cases hfd : c.serverFd.isSome = true
        · rw [if_pos hfd]
          exact if_pos hfd
        · rw [if_neg hfd]
          exact if_neg hfd
      · obtain ⟨c,hmem,rfl⟩ := List.mem_map.mp hc
        have hclient := h.clients hmem
        split_ifs
        · refine ⟨hclient.fits,hclient.terminated,hclient.requests,fun hm he => ?_⟩
          rcases List.mem_append.mp hm with hm | hm
          · exact hclient.messages hm he
          · rw [List.mem_singleton.mp hm] at he
            exact absurd he (by decide)
        · exact hclient
      · cases hs
      · cases hs
    · rw [if_neg hexit] at hsound ⊢
      obtain ⟨line,hrun⟩ := Server.step_other order srv hexit
      rw [hstep,serve_ok sys hrun]
      refine ⟨_,_,rfl,h.peers_eq,h.accepted_eq,h.stopped_some hsrv,hsound,h.clients,fun hs => ?_,fun hs => ?_⟩
      · cases hs
        exact (h.inv hsrv).step (e := .command .ok (some text)) trivial hrun
      · cases hs
        exact h.told hsrv

/-- Every event of the environment is answered, as the broker does. -/
theorem step {e : Event} (hproper : Proper (baseFds u w) t sys e) : ∃ out sys',
    Closed.step order sys e = ⟨out,.ok sys'⟩ ∧
      Refines u w order (t ++ out) sys' (b.next Server.closeMsg ends (e.brokerEvent order)) := by
  cases e with
  | start sub =>
    obtain ⟨sys',hstep,hnext⟩ := h.start hproper
    exact ⟨[],sys',hstep,by rwa [List.append_nil]⟩
  | line k text =>
    obtain ⟨sys',hstep,hnext⟩ := h.line hproper
    exact ⟨[],sys',hstep,by rwa [List.append_nil]⟩
  | handle k stack =>
    obtain ⟨sys',hstep,hnext⟩ := h.handle k stack
    exact ⟨[],sys',hstep,by rwa [List.append_nil]⟩
  | accept fd addr stack => exact h.accept hproper
  | read k stack => exact h.read k stack
  | datagram dgram => exact h.datagram hproper
  | console text => exact h.console text

end Refines

/-- The broker after a run of the system. -/
def broker (order : ByteOrder) (es : List Event) : State :=
  (es.map (Event.brokerEvent order)).foldl (Broker.State.next Server.closeMsg ends) Broker.State.empty

/-- Every run of the system is one of the broker. -/
theorem run_refines {u w : Int32} {order : ByteOrder} {es : List Event} {t : List Server.Effect} {sys : System}
    (run : ProperRun order u w es t sys) : Refines u w order t sys (broker order es) := by
  rw [broker,List.foldl_map]
  refine run.simulation (fun b e => b.next Server.closeMsg ends (e.brokerEvent order))
    (fun t sys b => Refines u w order t sys b) refines_init fun t sys b e out sys' h hproper hstep => ?_
  obtain ⟨out',sys'',hstep',hnext⟩ := h.step hproper
  cases hstep.symm.trans hstep'
  exact hnext

end ClientServerApp.Network.Closed
