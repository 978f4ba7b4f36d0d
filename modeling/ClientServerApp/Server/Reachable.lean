import ClientServerApp.Server.Operations

/-! What holds in every state that the server reaches, whatever its clients send and however its
system calls end. -/
namespace ClientServerApp.Server
open Traced Runs

/-- What the kernel guarantees: `accept` returns a descriptor that is not open, and no call returns
more bytes than it was asked for. -/
def Admissible (base : Finset Int32) (t : List Effect) : Event → Prop
  | .command _ _ => True
  | .datagram dgram => ∀ got, dgram.received = some got → got.length ≤ udpMsgSize
  | .connection conn => (conn.fd ≠ -1 → conn.fd ∉ openFds base t) ∧
      ∀ got, conn.received = some got → got.length ≤ maxIdSize+1
  | .message _ msg => ∀ got, msg.received = some got → got.length ≤ subMsgSize

/-- The open descriptors are those from the start and the monitored ones. -/
structure FdsMatch (base : Finset Int32) (t : List Effect) (watched : List Int32) : Prop where
  open_iff (fd : Int32) : fd ∈ openFds base t ↔ fd ∈ base ∨ fd ∈ watched
  apart {fd : Int32} : fd ∈ watched → fd ∉ base

section Fds
variable {base : Finset Int32} {t : List Effect} {watched : List Int32}

lemma openFds_append (t t' : List Effect) : openFds base (t ++ t') = openFds (openFds base t) t' :=
  List.foldl_append

@[simp] lemma openFds_nil : openFds base [] = base := rfl
@[simp] lemma openFds_accept (fd : Int32) : openFds base (.accept fd :: t) = openFds (insert fd base) t := rfl
@[simp] lemma openFds_close (fd : Int32) : openFds base (.close fd :: t) = openFds (base.erase fd) t := rfl
@[simp] lemma openFds_send (fd : Int32) (msg : SrvMsg) : openFds base (.send fd msg :: t) = openFds base t := rfl
@[simp] lemma openFds_print (line : List UInt8) : openFds base (.print line :: t) = openFds base t := rfl

lemma openFds_of_sends {out : List Effect} (h : ∀ e ∈ out, ∃ fd msg, e = .send fd msg) :
    openFds base out = base := by
  induction out with
  | nil => rfl
  | cons e out ih =>
    obtain ⟨fd,msg,rfl⟩ := h e (by simp)
    rw [openFds_send]
    exact ih fun e he => h e (by simp [he])

namespace FdsMatch
variable (h : FdsMatch base t watched)
include h

lemma accept {fd : Int32} (hnew : fd ∉ openFds base t) (line : List UInt8) :
    FdsMatch base (t ++ [.accept fd,.print line]) (watched ++ [fd]) where
  open_iff g := by
    rw [openFds_append]
    simp only [openFds_accept,openFds_print,openFds_nil,Finset.mem_insert,h.open_iff,List.mem_append,
      List.mem_singleton]
    tauto
  apart := by
    intro g hg
    rw [h.open_iff,not_or] at hnew
    rcases List.mem_append.mp hg with hg | hg
    · exact h.apart hg
    · rw [List.mem_singleton.mp hg]
      exact hnew.1

lemma refuse {fd : Int32} (hnew : fd ∉ openFds base t) (msg : SrvMsg) (line : List UInt8) :
    FdsMatch base (t ++ [.accept fd,.send fd msg,.close fd,.print line]) watched where
  open_iff g := by
    rw [openFds_append]
    simp only [openFds_accept,openFds_send,openFds_close,openFds_print,openFds_nil,
      Finset.erase_insert hnew,h.open_iff]
  apart := h.apart

lemma close {fd : Int32} (hnodup : watched.Nodup) (hfd : fd ∈ watched) (line : List UInt8) :
    FdsMatch base (t ++ [.close fd,.print line]) (watched.erase fd) where
  open_iff g := by
    rw [openFds_append]
    simp only [openFds_close,openFds_print,openFds_nil,Finset.mem_erase,h.open_iff,hnodup.mem_erase_iff]
    by_cases hg : g = fd
    · subst hg
      simp [h.apart hfd]
    · simp [hg]
  apart := fun hg => h.apart (List.mem_of_mem_erase hg)

lemma quiet {out : List Effect} (hout : ∀ s : Finset Int32, openFds s out = s) :
    FdsMatch base (t ++ out) watched where
  open_iff g := by rw [openFds_append,hout,h.open_iff]
  apart := h.apart

end FdsMatch

end Fds

/-- What every reached state satisfies, together with the log of the effects that led to it. -/
structure Inv (udpSockFd tcpSockFd : Int32) (t : List Effect) (srv : Srv) : Prop where
  sound : srv.Sound udpSockFd tcpSockFd
  coherent : srv.registry.Coherent
  fds : FdsMatch (baseFds udpSockFd tcpSockFd) t srv.watched

section Tries
variable {trie trie' : Trie topicAlphabet.length} (h : SubscriptionTrie trie) {topic : List UInt8}

lemma subscriptionTrie_create : SubscriptionTrie (trieCreate 1 topicAlphabet.length topicAlphabet) :=
  ⟨trieCreate_valid 1,rfl⟩

include h

/-- A removal by a client keeps its trie in shape and adds no key, whatever the topic. -/
lemma rmvSubscription_keeps (hrun : rmvSubscription trie topic = .ok trie') :
    SubscriptionTrie trie' ∧ ∀ k, trie'.Holds k → trie.Holds k := by
  rw [rmvSubscription] at hrun
  cases hs : trieSearch trie topic with
  | error e =>
    rw [hs] at hrun
    cases hrun
  | ok found =>
    rw [hs] at hrun
    cases found with
    | none =>
      cases hrun
      exact ⟨h,fun k hk => hk⟩
    | some value =>
      obtain ⟨trie'',hrun',hvalid,hsize,hkeys⟩ := h.valid.remove topic
      cases hrun'.symm.trans hrun
      exact ⟨⟨hvalid,hsize.trans h.dataSize⟩,fun k hk => ((hkeys k).mp hk).2⟩

/-- A subscription of a client: a word over the alphabet is added, another topic stops the server. -/
lemma addSubscription_topic (htopic : IsTopic topic) : ∃ trie', addSubscription trie topic = .ok trie' ∧
    SubscriptionTrie trie' ∧ ∀ k, trie'.Holds k ↔ k = topic ∨ trie.Holds k := by
  have hv : trie.info.dataSize ≤ (chars "TOPIC" ++ [0]).length := by
    rw [h.dataSize]
    decide
  obtain ⟨trie',hrun,hvalid,hsize,hkeys⟩ := h.valid.insert htopic hv
  exact ⟨trie',hrun,⟨hvalid,hsize.trans h.dataSize⟩,hkeys⟩

lemma addSubscription_foreign (htopic : ¬ IsTopic topic) :
    addSubscription trie topic = .error (.die "Current letter from key is not in alphabet") := by
  rw [addSubscription,trieInsert,trieInsertHelper_foreign _ htopic h.valid.alphabet_eq]
  rfl

/-- A subscription that is executed adds its topic and nothing else. -/
lemma addSubscription_keeps (hrun : addSubscription trie topic = .ok trie') :
    SubscriptionTrie trie' ∧ ∀ k, trie'.Holds k → k = topic ∨ trie.Holds k := by
  by_cases htopic : IsTopic topic
  · obtain ⟨trie'',hrun',htrie,hkeys⟩ := addSubscription_topic h htopic
    cases hrun'.symm.trans hrun
    exact ⟨htrie,fun k => (hkeys k).mp⟩
  · rw [addSubscription_foreign h htopic] at hrun
    cases hrun

end Tries

section Quiet
variable {srv : Srv} {io : Io} {msg : SrvMsg}

/-- Relaying performs no effect but sending that message. -/
lemma sendToSubscribers_emits (ps : List Ptr) :
    Emits (fun e => ∃ fd, e = .send fd msg) (sendToSubscribers srv io msg ps) := by
  have hone : ∀ p, Emits (fun e => ∃ fd, e = .send fd msg) (sendToSubscriber srv io msg p) := by
    intro p
    refine .bind (.lift _) fun sub => ?_
    by_cases hsock : sub.sockFd = -1
    · rw [if_pos hsock]
      exact .pure _
    · rw [if_neg hsock]
      refine .bind (.lift _) fun topic => .bind (.lift _) fun wanted => ?_
      cases wanted with
      | false => exact .pure _
      | true =>
        change Emits _ (send io sub.sockFd msg)
        unfold send
        split_ifs
        · exact .halt _
        · exact .emit ⟨_,rfl⟩
  induction ps with
  | nil => exact .pure _
  | cons p ps ih => exact .bind (hone p) fun _ => ih

/-- What a datagram makes the server send is built from it. -/
lemma handleUdpMsg_emits (order : ByteOrder) (srv : Srv) {dgram : Datagram} {got : List UInt8}
    (hgot : dgram.received = some got) :
    Emits (fun e => ∃ fd msg, e = .send fd msg ∧
      srvMsg order dgram.addr (UdpMsg.ofBytes (dgram.stack.overwrite got)) got.length = .ok msg)
      (handleUdpMsg order srv dgram) := by
  simp only [handleUdpMsg,hgot]
  cases hmsg : srvMsg order dgram.addr (UdpMsg.ofBytes (dgram.stack.overwrite got)) got.length with
  | error e => exact .halt e
  | ok msg =>
    rw [lift_ok_bind]
    refine (sendToSubscribers_emits srv.subs).mono fun e he => ?_
    obtain ⟨fd,rfl⟩ := he
    exact ⟨fd,msg,rfl,rfl⟩

lemma handleUdpMsg_sends (order : ByteOrder) (srv : Srv) (dgram : Datagram) :
    Emits (fun e => ∃ fd msg, e = .send fd msg) (handleUdpMsg order srv dgram) := by
  cases hgot : dgram.received with
  | none =>
    simp only [handleUdpMsg,hgot]
    exact .halt _
  | some got =>
    refine (handleUdpMsg_emits order srv hgot).mono fun e he => ?_
    obtain ⟨fd,msg,rfl,-⟩ := he
    exact ⟨fd,msg,rfl⟩

/-- The exit command does not come back to the loop. -/
lemma stopProgram_ne_ok (out : List Effect) (srv' : Srv) : stopProgram srv io ≠ ⟨out,.ok srv'⟩ := by
  intro h
  rw [stopProgram] at h
  obtain ⟨_,_,_,-,h,-⟩ := bind_eq_ok.mp h
  obtain ⟨_,_,_,-,h,-⟩ := bind_eq_ok.mp h
  obtain ⟨_,_,_,-,h,-⟩ := bind_eq_ok.mp h
  obtain ⟨_,_,_,-,h,-⟩ := bind_eq_ok.mp h
  exact halt_ne_ok _ _ _ h

/-- Any other line only makes the server print. -/
lemma handleStdinMsg_ok {line : Option (List UInt8)} {out : List Effect} {srv' : Srv}
    (h : handleStdinMsg srv io line = ⟨out,.ok srv'⟩) : srv' = srv ∧ ∃ text, out = [.print text] := by
  cases line with
  | none => exact absurd h (halt_ne_ok _ _ _)
  | some line =>
    rw [handleStdinMsg] at h
    cases htokens : tokens line with
    | nil =>
      simp only [htokens] at h
      cases h
      exact ⟨rfl,_,rfl⟩
    | cons command arguments =>
      simp only [htokens] at h
      by_cases hexit : command = chars "exit"
      · rw [if_pos hexit,executeExitCmd] at h
        by_cases harg : arguments ≠ []
        · rw [if_pos harg] at h
          cases h
          exact ⟨rfl,_,rfl⟩
        · rw [if_neg harg] at h
          exact absurd h (stopProgram_ne_ok out srv')
      · rw [if_neg hexit] at h
        cases h
        exact ⟨rfl,_,rfl⟩

end Quiet

section Invariant
variable {u w : Int32} {t out : List Effect} {srv srv' : Srv} {order : ByteOrder}

lemma registry_init : (initSrv u w).registry = ⟨[],[],fun _ => none,fun _ => none⟩ := by
  have hfd : (fun fd : Int32 => htGet (initSrv u w).subsByFd fd.toUInt32) = fun _ => none :=
    funext fun fd => htGet_create 2 hashUint compareUints _
  have hid : htGet (initSrv u w).subsById = fun _ => none :=
    funext fun id => htGet_create 2 hashString compareStrings id
  simp only [Srv.registry,hfd,hid]
  rfl

lemma watched_init : (initSrv u w).watched = [] := 
  congrArg Registry.watched (registry_init (u := u) (w := w))

lemma sound_init : (initSrv u w).Sound u w where
  udp_eq := rfl
  tcp_eq := rfl
  nfds_ge := le_refl 3
  nfds_le := by
    change 3 ≤ 256
    omega
  pfds_length := by
    change (_ ++ freshPfds (256-3)).length = 256
    rw [List.length_append,freshPfds,List.length_replicate]
    rfl
  subs_eq := rfl
  byFd_valid := htCreate_uints_valid
  byFd_compare := rfl
  byId_valid := htCreate_strings_valid
  byId_compare := rfl

theorem inv_init : Inv u w [] (initSrv u w) where
  sound := sound_init
  coherent := by
    rw [registry_init]
    exact ⟨List.nodup_nil,by simp,by simp,by simp,by simp⟩
  fds := by
    rw [watched_init]
    exact ⟨by simp,by simp⟩

/-- What a handler call that comes back to the loop can do: the effects it performs and how it
changes the registry. -/
inductive Transition (u w : Int32) (order : ByteOrder) (srv : Srv) : Event → List Effect → Srv → Prop
  | command {io line text} : Transition u w order srv (.command io line) [.print text] srv
  | datagram {dgram out} (run : handleUdpMsg order srv dgram = ⟨out,.ok ()⟩) :
      Transition u w order srv (.datagram dgram) out srv
  | first {conn got srv' line} (proceeds : conn.Proceeds got) (unknown : srv.registry.byId (cString got) = none)
      (sound : srv'.Sound u w) (registry : srv'.registry = srv.registry.add
        ⟨cString got,conn.fd,trieCreate 1 topicAlphabet.length topicAlphabet⟩) :
      Transition u w order srv (.connection conn) [.accept conn.fd,.print line] srv'
  | again {conn got p srv' line} {sub : Sub} (proceeds : conn.Proceeds got) (block : srv.heap[p]? = some sub)
      (known : sub.id = cString got) (past : sub.sockFd = -1) (sound : srv'.Sound u w)
      (registry : srv'.registry = srv.registry.revive p sub conn.fd) :
      Transition u w order srv (.connection conn) [.accept conn.fd,.print line] srv'
  | refused {conn got line} {p : Ptr} {sub : Sub} (proceeds : conn.Proceeds got) (block : srv.heap[p]? = some sub)
      (known : sub.id = cString got) (present : sub.sockFd ≠ -1) : Transition u w order srv (.connection conn)
      [.accept conn.fd,.send conn.fd closeMsg,.close conn.fd,.print line] srv
  | ignored {fd msg} : Transition u w order srv (.message fd msg) [] srv
  | resubscribed {fd msg got p sub subscriptions} (received : msg.received = some got)
      (block : srv.heap[p]? = some sub) (sender : sub.sockFd = fd) (trie : SubscriptionTrie subscriptions)
      (gained : ∀ key, subscriptions.Holds key → sub.subscriptions.Holds key ∨
        readString (SubMsg.ofBytes order (msg.stack.overwrite got)).topic.toList = .ok key) :
      Transition u w order srv (.message fd msg) []
        { srv with heap := srv.heap.set p { sub with subscriptions := subscriptions } }
  | disconnected {fd msg got p sub srv' line} (received : msg.received = some got)
      (closing : (SubMsg.ofBytes order (msg.stack.overwrite got)).type = closeSubMsg)
      (block : srv.heap[p]? = some sub) (sender : sub.sockFd = fd) (live : sub.sockFd ≠ -1)
      (monitored : sub.sockFd ∈ srv.watched) (sound : srv'.Sound u w)
      (registry : srv'.registry = srv.registry.disconnect p sub) :
      Transition u w order srv (.message fd msg) [.close sub.sockFd,.print line] srv'

namespace Inv
variable (h : Inv u w t srv)
include h

lemma not_watched {fd : Int32} (hnew : fd ∉ openFds (baseFds u w) t) : fd ∉ srv.watched := by
  rw [h.fds.open_iff,not_or] at hnew
  exact hnew.2

/-- The entry and the block behind a monitored descriptor. -/
lemma entry {fd : Int32} (hfd : fd ∈ srv.watched) : ∃ i p sub, srv.watched[i]? = some fd ∧
    srv.pfdIdx fd = some (i+3) ∧ srv.registry.byFd fd = some p ∧ srv.heap[p]? = some sub ∧
    sub.sockFd = fd ∧ fd ≠ -1 := by
  obtain ⟨p,sub,hp,hsub,hsock,hne⟩ := h.coherent.byFd_of_mem hfd
  obtain ⟨i,hi⟩ := Option.isSome_iff_exists.mp (List.isSome_idxOf?.mpr hfd)
  obtain ⟨hlt,hget,-⟩ := List.idxOf?_eq_some_iff.mp hi
  refine ⟨i,p,sub,?_,?_,hp,hsub,hsock,hne⟩
  · rw [List.getElem?_eq_getElem hlt,hget]
  · rw [Srv.pfdIdx,hi]
    rfl

variable (order) in
/-- A connection whose id fits is handled when no call fails. -/
lemma connection_runs {conn : Connection} {got : List UInt8} (hconn : conn.Proceeds got) (hio : conn.io = .ok) :
    ∃ out srv', handleListenTcpMsg order srv conn = ⟨out,.ok srv'⟩ := by
  cases hid : srv.registry.byId (cString got) with
  | none =>
    obtain ⟨srv',hrun,-⟩ := handleListenTcpMsg_new h.sound order hconn hid
    exact ⟨_,srv',hrun⟩
  | some p =>
    obtain ⟨sub,hp,-⟩ := (h.coherent.byId_iff _ p).mp hid
    by_cases hold : sub.sockFd = -1
    · obtain ⟨srv',hrun,-⟩ := handleListenTcpMsg_past h.sound order hconn hid hp hold
      exact ⟨_,srv',hrun⟩
    · have hsend : conn.fd ∉ conn.io.sendFails := by simp [hio,Io.ok]
      have hclose : conn.fd ∉ conn.io.closeFails := by simp [hio,Io.ok]
      exact ⟨_,srv,handleListenTcpMsg_present order hconn hid hp hold hsend hclose⟩

/-- A connection that comes back to the loop is a new client, a past one or one too many. -/
theorem connection_transition {conn : Connection} (hrun : handleListenTcpMsg order srv conn = ⟨out,.ok srv'⟩) :
    Transition u w order srv (.connection conn) out srv' := by
  obtain ⟨got,hconn⟩ := handleListenTcpMsg_ok order hrun
  cases hid : srv.registry.byId (cString got) with
  | none =>
    obtain ⟨srv'',hrun',hsound,hreg⟩ := handleListenTcpMsg_new h.sound order hconn hid
    cases hrun'.symm.trans hrun
    exact .first hconn hid hsound hreg
  | some p =>
    obtain ⟨sub,hp,hsubid⟩ := (h.coherent.byId_iff _ p).mp hid
    by_cases hold : sub.sockFd = -1
    · obtain ⟨srv'',hrun',hsound,hreg⟩ := handleListenTcpMsg_past h.sound order hconn hid hp hold
      cases hrun'.symm.trans hrun
      exact .again hconn hp hsubid hold hsound hreg
    · obtain ⟨hsend,hclose⟩ := handleListenTcpMsg_present_ok order hconn hid hp hold hrun
      cases (handleListenTcpMsg_present order hconn hid hp hold hsend hclose).symm.trans hrun
      exact .refused hconn hp hsubid hold

/-- A message that comes back to the loop, whatever its bytes are. -/
theorem message_transition {p : Ptr} {sub : Sub} {i : ℕ} {idx : ℕ} {fd : Int32} {incoming : Incoming}
    {got : List UInt8} (hgot : incoming.received = some got) (hp : srv.heap[p]? = some sub)
    (hi : srv.watched[i]? = some sub.sockFd) (hfd : sub.sockFd = fd) (hne : sub.sockFd ≠ -1)
    (hrun : executeSubMsg srv incoming.io p (i+3) (SubMsg.ofBytes order (incoming.stack.overwrite got)) =
      ⟨out,.ok (srv',idx)⟩) : Transition u w order srv (.message fd incoming) out srv' := by
  have htrie := h.coherent.trie (List.mem_of_getElem? hp)
  rcases (SubMsg.ofBytes order (incoming.stack.overwrite got)).type_cases with
    hun | hsub | hclose | ⟨hun,hsub,hclose⟩
  · rw [executeSubMsg_unsubscribe hp _ _ hun] at hrun
    obtain ⟨topic,-,hrun⟩ := lift_bind_eq_ok.mp hrun
    obtain ⟨subscriptions,hrmv,hrun⟩ := lift_bind_eq_ok.mp hrun
    cases hrun
    obtain ⟨htrie',hkeys⟩ := rmvSubscription_keeps htrie hrmv
    exact .resubscribed hgot hp hfd htrie' fun key hkey => .inl (hkeys key hkey)
  · rw [executeSubMsg_subscribe hp _ _ hsub] at hrun
    obtain ⟨topic,htopic,hrun⟩ := lift_bind_eq_ok.mp hrun
    obtain ⟨subscriptions,hadd,hrun⟩ := lift_bind_eq_ok.mp hrun
    cases hrun
    obtain ⟨htrie',hkeys⟩ := addSubscription_keeps htrie hadd
    refine .resubscribed hgot hp hfd htrie' fun key hkey => ?_
    rcases hkeys key hkey with rfl | hkey
    · exact .inr htopic
    · exact .inl hkey
  · rw [executeSubMsg_close _ _ hclose] at hrun
    have hio := subClosesSrvConnection_ok hp _ _ hrun
    obtain ⟨srv'',hrun',hsound,hreg,-⟩ := subClosesSrvConnection_spec h.sound h.coherent hp hi hio
    cases hrun'.symm.trans hrun
    exact .disconnected hgot hclose hp hfd hne (List.mem_of_getElem? hi) hsound hreg
  · rw [executeSubMsg_other _ _ hun hsub hclose] at hrun
    cases hrun
    exact .ignored

/-- Every handler call that comes back to the loop is one of the transitions. -/
theorem transition {e : Event} (hrun : Server.step order srv e = ⟨out,.ok srv'⟩) :
    Transition u w order srv e out srv' := by
  cases e with
  | command io line =>
    obtain ⟨rfl,text,rfl⟩ := handleStdinMsg_ok hrun
    exact .command
  | datagram dgram =>
    obtain ⟨o₁,_,o₂,hrun',hpure,rfl⟩ := bind_eq_ok.mp hrun
    cases hpure
    rw [List.append_nil]
    exact .datagram hrun'
  | connection conn => exact h.connection_transition hrun
  | message fd msg =>
    simp only [Server.step] at hrun
    by_cases hfd : fd ∈ srv.watched
    · obtain ⟨i,p,sub,hi,hidx,hbyFd,hp,hsock,hne⟩ := h.entry hfd
      rw [hidx] at hrun
      obtain ⟨o₁,⟨srv₁,idx⟩,o₂,hrun',hpure,rfl⟩ := bind_eq_ok.mp hrun
      cases hpure
      rw [handleSubMsg_eq order hi hbyFd hp] at hrun'
      cases hgot : msg.received with
      | none => simp [hgot] at hrun'
      | some got =>
        rw [hgot] at hrun'
        rw [← hsock] at hi hne
        rw [List.append_nil]
        exact h.message_transition hgot hp hi hsock hne hrun'
    · have hidx : srv.pfdIdx fd = none := by
        rw [Srv.pfdIdx,List.idxOf?_eq_none_iff.mpr hfd]
        rfl
      rw [hidx] at hrun
      cases hrun
      exact .ignored

/-- Every transition keeps the invariant. -/
theorem step {e : Event} (ha : Admissible (baseFds u w) t e) (hrun : Server.step order srv e = ⟨out,.ok srv'⟩) :
    Inv u w (t ++ out) srv' := by
  cases h.transition hrun with
  | command => exact ⟨h.sound,h.coherent,h.fds.quiet fun s => rfl⟩
  | @datagram dgram _ hrun' =>
    have hout := handleUdpMsg_sends order srv dgram
    rw [hrun'] at hout
    exact ⟨h.sound,h.coherent,h.fds.quiet fun s => openFds_of_sends hout⟩
  | @first conn got srv' line hconn hid hsound hreg =>
    have hnew := ha.1 hconn.fd_ne
    refine ⟨hsound,?_,?_⟩
    · rw [hreg]
      exact h.coherent.add hconn.fd_ne (h.not_watched hnew) hid subscriptionTrie_create
    · change FdsMatch _ _ srv'.registry.watched
      rw [hreg]
      exact h.fds.accept hnew _
  | @again conn got p srv' line sub hconn hp _ hold hsound hreg =>
    have hnew := ha.1 hconn.fd_ne
    refine ⟨hsound,?_,?_⟩
    · rw [hreg]
      exact h.coherent.revive hp hold hconn.fd_ne (h.not_watched hnew)
    · change FdsMatch _ _ srv'.registry.watched
      rw [hreg]
      exact h.fds.accept hnew _
  | refused hconn _ _ _ => exact ⟨h.sound,h.coherent,h.fds.refuse (ha.1 hconn.fd_ne) _ _⟩
  | ignored =>
    rw [List.append_nil]
    exact h
  | resubscribed _ hp _ htrie =>
    rw [List.append_nil]
    exact ⟨sound_resubscribe h.sound _,h.coherent.resubscribe hp htrie,h.fds⟩
  | @disconnected _ _ _ p sub srv' line _ _ hp _ hne hmem hsound hreg =>
    refine ⟨hsound,?_,?_⟩
    · rw [hreg]
      exact h.coherent.disconnect hp hne
    · change FdsMatch _ _ srv'.registry.watched
      rw [hreg]
      exact h.fds.close h.coherent.nodup hmem _

end Inv

/-- The invariant holds in every reached state. -/
theorem reachable_inv {es : List Event} (run : Run (machine order u w) (Admissible (baseFds u w)) es t srv) :
    Inv u w t srv :=
  run.invariant (Inv u w) inv_init fun _ _ _ _ _ h ha hrun => h.step ha hrun

end Invariant

end ClientServerApp.Server
