import ClientServerApp.Server.Refinement

/-! The orderly runs of the server: its structures agree, it refines the session table of its
clients, and every datagram reaches each client that wants it once. -/
namespace ClientServerApp.Server
open Runs SessionTable

section Runs
variable {u w : Int32} {order : ByteOrder} {es : List Event} {t : List Effect} {srv : Srv}

/-- An orderly run goes on with every orderly event. -/
lemma orderly_progress (run : Run (machine order u w) (Orderly order (baseFds u w)) es t srv) {e : Event}
    (ho : Orderly order (baseFds u w) t e) : ∃ out srv', step order srv e = ⟨out,.ok srv'⟩ ∧
      Run (machine order u w) (Orderly order (baseFds u w)) (es ++ [e]) (t ++ out) srv' := by
  obtain ⟨out,srv',hrun,-⟩ := step_follows (orderly_inv run) order (orderly_represents run) ho
  exact ⟨out,srv',hrun,run.step ho hrun⟩

end Runs

/-- A connection whose id arrives whole. -/
def wholeConnection (fd : Int32) (id : List UInt8) : Connection :=
  ⟨fd,⟨Buffer.zeroed 4,Buffer.zeroed 2⟩,false,Buffer.zeroed _,some id,.ok⟩

/-- A message of a subscriber that arrives whole. -/
def wholeMessage (order : ByteOrder) (msg : SubMsg) : Incoming := ⟨Buffer.zeroed _,some (msg.bytes order),.ok⟩

/-- A topic in its field, filled up with zeros. -/
def topicField (topic : List UInt8) : Buffer (maxTopicSize+1) := (Buffer.zeroed _).overwrite topic

/-- A datagram on a topic. -/
def datagramBytes (topic : List UInt8) (type : UInt8) (data : List UInt8) : List UInt8 :=
  ((Buffer.zeroed maxTopicSize).overwrite topic).toList ++ type :: data

def wholeDatagram (got : List UInt8) : Datagram :=
  ⟨⟨Buffer.zeroed 4,Buffer.zeroed 2⟩,Buffer.zeroed _,some got,.ok⟩

/-- The datagram with the string `hello` on the topic `a/b`. -/
def helloBytes : List UInt8 := datagramBytes (chars "a/b") stringSrvMsg (chars "hello")

def helloDatagram : Datagram := wholeDatagram helloBytes

/-- Client `c` connects and subscribes to `a/+`. -/
def subscribedEvents : List Event :=
  [.connection (wholeConnection 5 (chars "c")),
    .message 5 (wholeMessage .little ⟨subscribeSubMsg,topicField (chars "a/+")⟩)]

lemma orderly_connection : Orderly .little (baseFds 3 4) [] (.connection (wholeConnection 5 (chars "c"))) :=
  ⟨by decide,by decide,rfl,rfl,_,rfl,by decide⟩

lemma orderly_message (t : List Effect) : Orderly .little (baseFds 3 4) t
    (.message 5 (wholeMessage .little ⟨subscribeSubMsg,topicField (chars "a/+")⟩)) :=
  ⟨rfl,_,rfl,fun _ => ⟨by decide +kernel,by decide +kernel⟩⟩

/-- A subscription that arrives whole. -/
def subscription (topic : String) : Incoming := wholeMessage .little ⟨subscribeSubMsg,topicField (chars topic)⟩

/-- Clients `c`, `d` and `e` connect and subscribe to `a/+`, `a/b` and `a/*`. -/
def severalEvents : List Event :=
  [.connection (wholeConnection 5 (chars "c")),.connection (wholeConnection 6 (chars "d")),
    .connection (wholeConnection 7 (chars "e")),.message 5 (subscription "a/+"),.message 6 (subscription "a/b"),
    .message 7 (subscription "a/*")]

/-- A check that only orderly events pass. -/
def Event.orderly (order : ByteOrder) (base : Finset Int32) (t : List Effect) : Event → Bool
  | .connection conn => conn.fd ≠ -1 && conn.fd ∉ openFds base t && conn.setsockoptFails = false && conn.io = .ok &&
      conn.received.any fun id => id.length ≤ maxIdSize
  | .message _ msg => msg.io = .ok && msg.received.any fun got =>
      let sent := SubMsg.ofBytes order ((Buffer.zeroed _).overwrite got)
      sent.bytes order = got && 0 ∈ sent.topic.toList && IsTopic (cString sent.topic.toList)
  | _ => false

lemma orderly_of_check {order : ByteOrder} {base : Finset Int32} {t : List Effect} {e : Event}
    (h : e.orderly order base t) : Orderly order base t e := by
  cases e with
  | command io line => cases h
  | datagram dgram => cases h
  | connection conn =>
    simp only [Event.orderly,Bool.and_eq_true,decide_eq_true_iff,Option.any_eq_true] at h
    obtain ⟨⟨⟨⟨hne,hnew⟩,hopt⟩,hio⟩,id,hid,hlen⟩ := h
    exact ⟨hne,hnew,hopt,hio,id,hid,hlen⟩
  | message fd msg =>
    simp only [Event.orderly,Bool.and_eq_true,decide_eq_true_iff,Option.any_eq_true] at h
    obtain ⟨hio,got,hgot,⟨hsent,hnul⟩,htopic⟩ := h
    exact ⟨hio,_,by rw [hsent,hgot],fun _ => ⟨hnul,htopic⟩⟩

/-- An orderly run that can be computed. -/
lemma exists_orderly_run {es : List Event} {P : List Effect × Srv → Bool} (h : ((machine .little 3 4).exec
      (fun t _ e => e.orderly .little (baseFds 3 4) t) [] (machine .little 3 4).init es).any P) :
    ∃ t srv, Run (machine .little 3 4) (Orderly .little (baseFds 3 4)) es t srv ∧ P (t,srv) :=
  exists_run (fun _ _ _ => orderly_of_check) h

lemma exists_subscribed_run :
    ∃ t srv, Run (machine .little 3 4) (Orderly .little (baseFds 3 4)) subscribedEvents t srv := by
  obtain ⟨out,srv,-,run⟩ := orderly_progress .init orderly_connection
  obtain ⟨out',srv',-,run'⟩ := orderly_progress run (orderly_message ([] ++ out))
  exact ⟨_,srv',run'⟩

section Relay
variable {t : List Effect} {srv : Srv}
  (run : Run (machine .little 3 4) (Orderly .little (baseFds 3 4)) subscribedEvents t srv)

/-- In their table client `c` alone holds a connection, and it receives what is published on `a/b`. -/
lemma subscribed_holds {id : List UInt8} {fd : Int32}
    (h : (tableAfter .little subscribedEvents).Holds id fd) : fd = 5 := by
  have hevents : subscribedEvents.map (Event.sessionEvent .little) =
      [.connect (chars "c") 5,.subscribe 5 (chars "a/+")] := rfl
  rw [tableAfter,hevents] at h
  change (((Table.empty : Table (List UInt8) Int32 (List UInt8)).next (.connect (chars "c") 5)).next
    (.subscribe 5 (chars "a/+"))).Holds id fd at h
  rcases Table.holds_of_next h with h | h
  · rcases Table.holds_of_next h with ⟨s,hs,-⟩ | h
    · cases hs
    · cases h
      rfl
  · cases h

lemma subscribed_receives :
    (tableAfter .little subscribedEvents).Receives (MatchesTopic · (chars "a/b")) (chars "c") 5 := by
  refine ⟨_,rfl,rfl,chars "a/+",by decide +kernel,?_⟩
  change LevelPattern.Matches [plus] [star] [chars "a",[plus]] [chars "a",chars "b"]
  exact .text (by decide) (by decide) (.one _ .nil)

lemma datagramBytes_topic (type : UInt8) (data : List UInt8) :
    cString ((datagramBytes (chars "a/b") type data).take maxTopicSize) = chars "a/b" := by
  rw [datagramBytes,List.take_left' (List.Vector.toList_length _)]
  decide +kernel

lemma helloBytes_topic : cString (helloBytes.take maxTopicSize) = chars "a/b" := datagramBytes_topic _ _

include run

lemma subscribed_watched : (5 : Int32) ∈ srv.watched := by
  have h := orderly_inv run
  obtain ⟨p,sub,hbyFd,-⟩ := ((orderly_represents run).holds_iff h.coherent (chars "c") 5).mp ⟨_,rfl,rfl⟩
  refine (h.coherent.watched_iff 5).mpr ?_
  rw [hbyFd]
  rfl

/-- A datagram on `a/b` is then sent to client `c` and to nobody else. -/
lemma subscribed_relays (type : UInt8) {data : List UInt8} (hdata : data.length ≤ maxDataSize) :
    ∃ msg, IsRelayed ⟨Buffer.zeroed 4,Buffer.zeroed 2⟩ (datagramBytes (chars "a/b") type data) msg ∧
      step .little srv (.datagram (wholeDatagram (datagramBytes (chars "a/b") type data))) =
        ⟨[.send 5 msg],.ok srv⟩ := by
  have := sizes
  have h := orderly_inv run
  have hlen : (datagramBytes (chars "a/b") type data).length = maxTopicSize + 1 + data.length := by
    simp [datagramBytes]
    omega
  have htopic := datagramBytes_topic type data
  obtain ⟨msg,hmsg,hstep⟩ := step_datagram h.sound .little
    (rfl : (wholeDatagram (datagramBytes (chars "a/b") type data)).io = .ok) rfl (by omega) (by omega)
    (by rw [htopic]; decide +kernel)
  rw [htopic] at hstep
  refine ⟨msg,hmsg,?_⟩
  have hlevels : ∀ l ∈ levels (chars "a/b"), l ≠ [] := by
    rw [show levels (chars "a/b") = [chars "a",chars "b"] from rfl]
    decide
  have hreceives := receives_iff h (orderly_represents run) hlevels
  have hmem : Effect.send 5 msg ∈ deliveries srv.heap msg (chars "a/b") := by
    obtain ⟨p,sub,hp,hwants,-,hsock⟩ := (hreceives _ _).mp subscribed_receives
    exact (mem_deliveries msg _).mpr ⟨sub,List.mem_of_getElem? hp,hwants,by rw [hsock]⟩
  have hall : ∀ e ∈ deliveries srv.heap msg (chars "a/b"), e = Effect.send 5 msg := by
    intro e he
    obtain ⟨sub,hsub,hwants,rfl⟩ := (mem_deliveries msg _).mp he
    obtain ⟨p,hp⟩ := List.mem_iff_getElem?.mp hsub
    obtain ⟨s,hs,hfd,-⟩ := (hreceives sub.id sub.sockFd).mpr ⟨p,sub,hp,hwants,rfl,rfl⟩
    rw [subscribed_holds ⟨s,hs,hfd⟩]
  rw [hstep]
  congr 1
  by_contra hne
  rcases ((deliveries_nodup h.coherent msg (chars "a/b")).ne_singleton_iff _).mp hne with hnil | ⟨e,he,hother⟩
  · rw [show deliveries srv.heap msg (chars "a/b") = [] from hnil] at hmem
    exact List.not_mem_nil hmem
  · exact hother (hall e he)

end Relay

/-- Exactly-once delivery: after every orderly run a datagram whose topic has no empty level is sent
once to each client that holds a connection and has a matching pattern among its topics, on that
connection, and nothing else is sent. -/
theorem delivery_exactlyOnce {u w : Int32} {order : ByteOrder} {es : List Event} {t : List Effect} {srv : Srv}
    (run : Run (machine order u w) (Orderly order (baseFds u w)) es t srv) (dgram : Datagram)
    (ho : Orderly order (baseFds u w) t (.datagram dgram)) {got : List UInt8} (hgot : dgram.received = some got)
    (hlevels : ∀ l ∈ levels (cString (got.take maxTopicSize)), l ≠ []) :
    ∃ msg out, IsRelayed dgram.addr got msg ∧ step order srv (.datagram dgram) = ⟨out,.ok srv⟩ ∧
      (∀ id fd, (tableAfter order es).Receives (MatchesTopic · (cString (got.take maxTopicSize))) id fd →
        out.count (.send fd msg) = 1) ∧
      ∀ e ∈ out, ∃ id fd, (tableAfter order es).Receives (MatchesTopic · (cString (got.take maxTopicSize))) id fd ∧
        e = .send fd msg := by
  have h := orderly_inv run
  have hreceives := receives_iff h (orderly_represents run) hlevels
  obtain ⟨hio,got',hgot',hge,hle,htopic⟩ := ho
  cases hgot.symm.trans hgot'
  obtain ⟨msg,hmsg,hrun⟩ := step_datagram h.sound order hio hgot hge hle htopic
  refine ⟨msg,_,hmsg,hrun,fun id fd hr => ?_,fun e he => ?_⟩
  · obtain ⟨p,sub,hp,hwants,-,rfl⟩ := (hreceives id fd).mp hr
    have hcount := count_deliveries h.coherent msg (cString (got.take maxTopicSize)) hp
      ((sub.wants_iff hlevels).mp hwants).1
    rwa [if_pos hwants] at hcount
  · obtain ⟨sub,hsub,hwants,rfl⟩ := (mem_deliveries msg _).mp he
    obtain ⟨p,hp⟩ := List.mem_iff_getElem?.mp hsub
    exact ⟨sub.id,sub.sockFd,(hreceives _ _).mpr ⟨p,sub,hp,hwants,rfl,rfl⟩,rfl⟩

/-- What is published on `a/c` is for clients `c` and `e`, and it is sent to each of them once. -/
theorem delivery_exactlyOnce_wildcard : ∃ t srv,
    Run (machine .little 3 4) (Orderly .little (baseFds 3 4)) severalEvents t srv ∧
    ∃ msg out, IsRelayed ⟨Buffer.zeroed 4,Buffer.zeroed 2⟩ (datagramBytes (chars "a/c") 3 (chars "hello")) msg ∧
      step .little srv (.datagram (wholeDatagram (datagramBytes (chars "a/c") 3 (chars "hello")))) = ⟨out,.ok srv⟩ ∧
      out.count (.send 5 msg) = 1 ∧ out.count (.send 7 msg) = 1 ∧ ∀ msg', .send 6 msg' ∉ out := by
  obtain ⟨t,srv,run,-⟩ := @exists_orderly_run severalEvents (fun _ => true) (by decide +kernel)
  have hlevels : levels (cString ((datagramBytes (chars "a/c") 3 (chars "hello")).take maxTopicSize)) =
      [chars "a",chars "c"] := rfl
  obtain ⟨msg,out,hmsg,hstep,honce,honly⟩ := delivery_exactlyOnce run
    (wholeDatagram (datagramBytes (chars "a/c") 3 (chars "hello")))
    ⟨rfl,_,rfl,by decide +kernel,by decide +kernel,by decide +kernel⟩ rfl (by rw [hlevels]; decide)
  refine ⟨t,srv,run,msg,out,hmsg,hstep,honce (chars "c") 5 ?_,honce (chars "e") 7 ?_,fun msg' hmem => ?_⟩
  · refine ⟨_,rfl,rfl,chars "a/+",by decide +kernel,?_⟩
    exact .text (by decide) (by decide) (.one _ .nil)
  · refine ⟨_,rfl,rfl,chars "a/*",by decide +kernel,?_⟩
    exact .text (by decide) (by decide) (.many [chars "c"] (by simp) .nil)
  · -- the holder of descriptor 6 is client `d`, whose one topic is another one
    obtain ⟨id,fd,⟨s,hs,hfd,key,hkey,hmatches⟩,heq⟩ := honly _ hmem
    cases heq
    have hid := (orderly_represents run).exclusive (orderly_inv run).coherent id (chars "d") 6 ⟨s,hs,hfd⟩ ⟨_,rfl,rfl⟩
    subst hid
    obtain rfl : s = ⟨some 6,{chars "a/b"}⟩ := Option.some.inj (hs.symm.trans rfl)
    rw [Finset.mem_singleton.mp hkey,← mem_patterns_iff_matches (by rw [hlevels]; decide)] at hmatches
    exact absurd hmatches (by decide +kernel)

/-- Consistency of the four structures: it holds after every orderly run, and every orderly event is
handled without a halt. -/
theorem server_consistent {u w : Int32} {order : ByteOrder} {es : List Event} {t : List Effect} {srv : Srv}
    (run : Run (machine order u w) (Orderly order (baseFds u w)) es t srv) :
    srv.Consistent ∧ ∀ e, Orderly order (baseFds u w) t e → ∃ out srv', step order srv e = ⟨out,.ok srv'⟩ := by
  refine ⟨(orderly_inv run).consistent,fun e ho => ?_⟩
  obtain ⟨out,srv',hrun,-⟩ := orderly_progress run ho
  exact ⟨out,srv',hrun⟩

theorem server_consistent_subscribed : ∃ t srv,
    Run (machine .little 3 4) (Orderly .little (baseFds 3 4)) severalEvents t srv ∧ srv.Consistent ∧
      ∃ out srv', step .little srv (.message 6 (subscription "b")) = ⟨out,.ok srv'⟩ := by
  obtain ⟨t,srv,run,-⟩ := @exists_orderly_run severalEvents (fun _ => true) (by decide +kernel)
  obtain ⟨hconsistent,hprogress⟩ := server_consistent run
  exact ⟨t,srv,run,hconsistent,hprogress _ ⟨rfl,_,rfl,fun _ => ⟨by decide +kernel,by decide +kernel⟩⟩⟩

/-- Refinement: after every orderly run the server represents the session table of the events. Its
connections are the descriptors that are open besides those from the start; none is shared and nobody
holds two. The next orderly event is handled and followed by the table, it leaves the blocks of all
clients but its sender alone, and the connection of a client that holds one already is told to close
and closed while the server stays as it was. -/
theorem server_refines_sessionTable {u w : Int32} {order : ByteOrder} {es : List Event} {t : List Effect}
    {srv : Srv} (run : Run (machine order u w) (Orderly order (baseFds u w)) es t srv) :
    srv.registry.Represents (tableAfter order es) ∧
    (∀ fd, fd ∈ openFds (baseFds u w) t ↔ fd ∈ baseFds u w ∨ ∃ id, (tableAfter order es).Holds id fd) ∧
    (tableAfter order es).Exclusive ∧
    (∀ id fd fd', (tableAfter order es).Holds id fd → (tableAfter order es).Holds id fd' → fd = fd') ∧
    ∀ e, Orderly order (baseFds u w) t e → ∃ out srv', step order srv e = ⟨out,.ok srv'⟩ ∧
      Follows srv srv' (tableAfter order es) (e.sessionEvent order) ∧
      ∀ conn id fd, e = .connection conn → conn.received = some id → (tableAfter order es).Holds (cString id) fd →
        srv' = srv ∧ ∃ line, out = [.accept conn.fd,.send conn.fd closeMsg,.close conn.fd,.print line] := by
  have h := orderly_inv run
  have hT := orderly_represents run
  refine ⟨hT,openFds_iff_holds h hT,hT.exclusive h.coherent,fun _ _ _ => Table.Holds.unique,fun e ho => ?_⟩
  obtain ⟨out,srv',hrun,hfollows⟩ := step_follows h order hT ho
  refine ⟨out,srv',hrun,hfollows,?_⟩
  rintro conn id fd rfl hid hholds
  obtain ⟨hne,-,hopt,hio,got,hgot,hlen⟩ := ho
  cases hid.symm.trans hgot
  obtain ⟨p,sub,hbyFd,hp,hsub⟩ := (hT.holds_iff h.coherent _ fd).mp hholds
  obtain ⟨hfd,sub',hp',hsock⟩ := (h.coherent.byFd_iff fd p).mp hbyFd
  cases hp.symm.trans hp'
  have hbyId : srv.registry.byId (cString id) = some p := (h.coherent.byId_iff _ p).mpr ⟨sub,hp,hsub⟩
  have hpresent := handleListenTcpMsg_present order (⟨hne,hopt,hid,hlen⟩ : conn.Proceeds id) hbyId hp
    (hsock ▸ hfd) (by simp [hio,Io.ok]) (by simp [hio,Io.ok])
  cases hpresent.symm.trans hrun
  exact ⟨rfl,_,rfl⟩

/-- Client `d` holds descriptor 6, and a second client that calls itself `d` is told to close. -/
theorem server_refines_subscribed : ∃ t srv,
    Run (machine .little 3 4) (Orderly .little (baseFds 3 4)) severalEvents t srv ∧ 6 ∈ openFds (baseFds 3 4) t ∧
    ∃ line, step .little srv (.connection (wholeConnection 8 (chars "d"))) =
      ⟨[.accept 8,.send 8 closeMsg,.close 8,.print line],.ok srv⟩ := by
  obtain ⟨t,srv,run,hnew⟩ := @exists_orderly_run severalEvents (fun r => decide (8 ∉ openFds (baseFds 3 4) r.1))
    (by decide +kernel)
  obtain ⟨-,hopen,-,-,hstep⟩ := server_refines_sessionTable run
  have hholds : (tableAfter .little severalEvents).Holds (chars "d") 6 := ⟨_,rfl,rfl⟩
  obtain ⟨out,srv',hrun,-,hrefused⟩ := hstep (.connection (wholeConnection 8 (chars "d")))
    ⟨by decide,of_decide_eq_true hnew,rfl,rfl,_,rfl,by decide⟩
  obtain ⟨rfl,line,rfl⟩ := hrefused _ _ 6 rfl rfl hholds
  exact ⟨t,srv',run,(hopen 6).mpr (.inr ⟨_,hholds⟩),line,hrun⟩

end ClientServerApp.Server
