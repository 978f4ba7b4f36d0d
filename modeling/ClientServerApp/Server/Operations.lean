import ClientServerApp.Server.Handlers
import ClientServerApp.Server.Registry
import ClientServerApp.HashTable.Invariant

/-! The handlers of the server keep its arrays and tables in shape and change what these record by
the operations of the registry. -/
namespace ClientServerApp.Server
open Traced AssocList

/-- What the server records about its clients. -/
def Srv.registry (srv : Srv) : Registry where
  heap := srv.heap
  watched := srv.watched
  byFd := fun fd => htGet srv.subsByFd fd.toUInt32
  byId := htGet srv.subsById

/-- The sockets of the server do not change, its poll array is filled within its capacity, the list
has one node for each block, latest first, and both tables are in shape. -/
structure Srv.Sound (udpSockFd tcpSockFd : Int32) (srv : Srv) : Prop where
  udp_eq : srv.udpSockFd = udpSockFd
  tcp_eq : srv.tcpSockFd = tcpSockFd
  nfds_ge : 3 ≤ srv.nfds
  nfds_le : srv.nfds ≤ srv.maxNfds
  pfds_length : srv.pfds.length = srv.maxNfds
  subs_eq : srv.subs = (List.range srv.heap.length).reverse
  byFd_valid : srv.subsByFd.Valid
  byFd_compare : srv.subsByFd.compareFunction = compareUints
  byId_valid : srv.subsById.Valid
  byId_compare : srv.subsById.compareFunction = compareStrings

/-- Every node of the list has its block. -/
lemma Srv.Sound.lt_of_mem_subs {u w : Int32} {srv : Srv} (h : srv.Sound u w) {p : Ptr} (hp : p ∈ srv.subs) :
    p < srv.heap.length := by
  rw [h.subs_eq] at hp
  simpa using hp

lemma toUInt32_injective {a b : Int32} (h : a.toUInt32 = b.toUInt32) : a = b := by
  rw [← a.toInt32_toUInt32,h,b.toInt32_toUInt32]

section Tables

lemma htCreate_strings_valid : (htCreate 2 hashString compareStrings : Ht (List UInt8) Ptr).Valid := by
  apply htCreate_valid (by decide) keyEquivalence_strings
  intro a b hab
  rw [(compareStrings_eq_zero_iff a b).mp hab]

lemma htCreate_uints_valid : (htCreate 2 hashUint compareUints : Ht UInt32 Ptr).Valid := by
  apply htCreate_valid (by decide) keyEquivalence_uints
  intro a b hab
  rw [(compareUints_eq_zero_iff a b).mp hab]

/-- Storing a descriptor. -/
lemma byFd_put {ht : Ht UInt32 Ptr} (h : ht.Valid) (hc : ht.compareFunction = compareUints) (fd : Int32) (p : Ptr) :
    ∃ ht', htPut putDepth ht fd.toUInt32 p = .ok ht' ∧ ht'.Valid ∧ ht'.compareFunction = compareUints ∧
      (fun g : Int32 => htGet ht' g.toUInt32) =
        Function.update (fun g : Int32 => htGet ht g.toUInt32) fd (some p) := by
  obtain ⟨ht',hrun,hvalid,hfun,hget⟩ := h.put 0 fd.toUInt32 p
  refine ⟨ht',hrun,hvalid,hfun.2.trans hc,?_⟩
  funext g
  have hsame : ht.same fd.toUInt32 g.toUInt32 = true ↔ g = fd := by
    rw [Ht.same,hc,beq_iff_eq,compareUints_eq_zero_iff]
    exact ⟨fun he => (toUInt32_injective he).symm,fun he => by rw [he]⟩
  rw [hget,Function.update_apply]
  exact if_congr hsame rfl rfl

/-- Forgetting a descriptor. -/
lemma byFd_remove {ht : Ht UInt32 Ptr} (h : ht.Valid) (hc : ht.compareFunction = compareUints) (fd : Int32) :
    (htRemoveEntry ht fd.toUInt32).Valid ∧ (htRemoveEntry ht fd.toUInt32).compareFunction = compareUints ∧
      (fun g : Int32 => htGet (htRemoveEntry ht fd.toUInt32) g.toUInt32) =
        Function.update (fun g : Int32 => htGet ht g.toUInt32) fd none := by
  obtain ⟨hvalid,hfun,hget⟩ := h.removeEntry fd.toUInt32
  refine ⟨hvalid,hfun.2.trans hc,?_⟩
  funext g
  have hsame : ht.same fd.toUInt32 g.toUInt32 = true ↔ g = fd := by
    rw [Ht.same,hc,beq_iff_eq,compareUints_eq_zero_iff]
    exact ⟨fun he => (toUInt32_injective he).symm,fun he => by rw [he]⟩
  rw [hget,Function.update_apply]
  exact if_congr hsame rfl rfl

/-- Storing an id. -/
lemma byId_put {ht : Ht (List UInt8) Ptr} (h : ht.Valid) (hc : ht.compareFunction = compareStrings)
    (id : List UInt8) (p : Ptr) :
    ∃ ht', htPut putDepth ht id p = .ok ht' ∧ ht'.Valid ∧ ht'.compareFunction = compareStrings ∧
      htGet ht' = Function.update (htGet ht) id (some p) := by
  obtain ⟨ht',hrun,hvalid,hfun,hget⟩ := h.put 0 id p
  refine ⟨ht',hrun,hvalid,hfun.2.trans hc,?_⟩
  funext k
  have hsame : ht.same id k = true ↔ k = id := by
    rw [Ht.same,hc,beq_iff_eq,compareStrings_eq_zero_iff]
    exact eq_comm
  rw [hget,Function.update_apply]
  exact if_congr hsame rfl rfl

end Tables

section Poll
variable {pfds : List Pollfd}

lemma defined_eq_ok {α : Type} {o : Option α} {a : α} (h : o = some a) : defined o = .ok a := by
  rw [h,defined_some]

lemma writePfd_eq {i : ℕ} (h : i < pfds.length) (pfd : Pollfd) : writePfd pfds i pfd = .ok (pfds.set i pfd) :=
  if_pos h

lemma eraseIdx_set_succ {α : Type} {l : List α} {i : ℕ} {x : α} (h : l[i+1]? = some x) :
    (l.set i x).eraseIdx (i+1) = l.eraseIdx i := by
  induction l generalizing i with
  | nil => rfl
  | cons y l ih =>
    cases i with
    | zero =>
      cases l with
      | nil => simp at h
      | cons z l =>
        simp at h
        simp [h]
    | succ i =>
      simp only [List.set_cons_succ,List.eraseIdx_cons_succ]
      rw [ih (by simpa using h)]

/-- The shift drops one entry from the monitored ones. -/
theorem shiftPfds_spec {idx nfds : ℕ} (hidx : idx < nfds) (hnfds : nfds ≤ pfds.length) :
    ∃ pfds', shiftPfds pfds idx nfds = .ok pfds' ∧ pfds'.length = pfds.length ∧
      pfds'.take (nfds-1) = (pfds.take nfds).eraseIdx idx := by
  rw [shiftPfds]
  obtain ⟨k,hk⟩ : ∃ k, nfds - 1 - idx = k := ⟨_,rfl⟩
  rw [hk]
  induction k generalizing idx pfds with
  | zero =>
    refine ⟨pfds,rfl,rfl,?_⟩
    have hlast : idx = nfds - 1 := by omega
    have hdrop : (pfds.take nfds).drop (idx+1) = [] := List.drop_eq_nil_of_le (by simp; omega)
    have hmin : min (nfds-1) nfds = nfds - 1 := by omega
    rw [List.eraseIdx_eq_take_drop_succ,hdrop,hlast,List.take_take,hmin,List.append_nil]
  | succ k ih =>
    obtain ⟨x,hx⟩ : ∃ x, pfds[idx+1]? = some x :=
      Option.isSome_iff_exists.mp (by simp; omega)
    obtain ⟨pfds',hrun,hlen,htake⟩ :=
      @ih (pfds.set idx x) (idx+1) (by omega) (by simpa using hnfds) (by omega)
    refine ⟨pfds',?_,by simpa using hlen,?_⟩
    · rw [List.range'_succ,List.foldlM_cons,defined_eq_ok hx]
      change (writePfd pfds idx x >>= _) = _
      rw [writePfd_eq (by omega)]
      exact hrun
    · rw [htake,List.take_set]
      apply eraseIdx_set_succ
      rw [List.getElem?_take_of_lt (by omega),hx]

end Poll

/-- The entries of `pfds` that belong to subscribers. -/
def Srv.entries (srv : Srv) : List Pollfd := (srv.pfds.take srv.nfds).drop 3

lemma Srv.watched_eq (srv : Srv) : srv.watched = srv.entries.map Pollfd.fd := rfl

lemma pfds_of_entries {srv : Srv} {i : ℕ} {pfd : Pollfd} (hi : srv.entries[i]? = some pfd) :
    i+3 < srv.nfds ∧ srv.pfds[i+3]? = some pfd := by
  rw [Srv.entries,List.getElem?_drop,Nat.add_comm 3 i] at hi
  have hlt := (List.getElem?_eq_some_iff.mp hi).1
  rw [List.length_take] at hlt
  exact ⟨by omega,by rwa [List.getElem?_take_of_lt (by omega)] at hi⟩

/-- The first three entries are not moved. -/
lemma eraseIdx_drop {l : List Pollfd} (hthree : 3 ≤ l.length) (i : ℕ) :
    (l.eraseIdx (i+3)).drop 3 = (l.drop 3).eraseIdx i := by
  have htake : (l.take 3).length = 3 := by
    rw [List.length_take]
    omega
  have hsplit : l.eraseIdx (i+3) = l.take 3 ++ (l.drop 3).eraseIdx i := by
    have herase := List.eraseIdx_append_of_length_le (show (l.take 3).length ≤ i+3 by omega) (l.drop 3)
    rwa [List.take_append_drop,htake,Nat.add_sub_cancel] at herase
  rw [hsplit,List.drop_left' htake]

section Handlers
variable {u w : Int32} {srv : Srv} (h : srv.Sound u w) (order : ByteOrder)
include h

lemma addPfd_spec (fd : Int32) : ∃ pfds m,
    addPfd srv fd = .ok { srv with pfds := pfds, nfds := srv.nfds+1, maxNfds := m } ∧
      pfds.length = m ∧ srv.nfds+1 ≤ m ∧
      ((pfds.take (srv.nfds+1)).drop 3).map Pollfd.fd = srv.watched ++ [fd] := by
  have hge := h.nfds_ge
  have hle := h.nfds_le
  have hlen := h.pfds_length
  -- with room for one more entry, it is written behind the others
  have hroom : ∀ (pfds : List Pollfd), srv.nfds < pfds.length → pfds.take srv.nfds = srv.pfds.take srv.nfds →
      (((pfds.set srv.nfds ⟨fd,pollin,0⟩).take (srv.nfds+1)).drop 3).map Pollfd.fd = srv.watched ++ [fd] := by
    intro pfds hlt htake
    have hthree : 3 ≤ (srv.pfds.take srv.nfds).length := by
      rw [List.length_take]
      omega
    rw [List.take_add_one,List.take_set_of_le (le_refl _),List.getElem?_set_self hlt,htake,
      List.drop_append_of_le_length hthree,List.map_append]
    rfl
  by_cases hfull : srv.nfds = srv.maxNfds
  · have hlt : srv.nfds < (srv.pfds ++ freshPfds srv.maxNfds).length := by
      rw [List.length_append,freshPfds,List.length_replicate]
      omega
    refine ⟨_,2*srv.maxNfds,?_,?_,by omega,hroom _ hlt (List.take_append_of_le_length (by omega))⟩
    · simp only [addPfd,if_pos hfull,writePfd_eq hlt]
      rfl
    · rw [List.length_set,List.length_append,freshPfds,List.length_replicate]
      omega
  · have hlt : srv.nfds < srv.pfds.length := by omega
    refine ⟨_,srv.maxNfds,?_,?_,by omega,hroom _ hlt rfl⟩
    · simp only [addPfd,if_neg hfull,writePfd_eq hlt]
      rfl
    · rw [List.length_set,hlen]

/-- `add_new_sub` -/
theorem addNewSub_spec (id : List UInt8) (fd : Int32) (addr : SockAddr) : ∃ srv',
    addNewSub order srv id fd addr = ⟨[.print (connectedLine order id addr)],.ok srv'⟩ ∧ srv'.Sound u w ∧
      srv'.registry = srv.registry.add ⟨id,fd,trieCreate 1 topicAlphabet.length topicAlphabet⟩ := by
  obtain ⟨pfds,m,hadd,hlen,hle,hwatched⟩ := addPfd_spec h fd
  obtain ⟨byFd,hputFd,hvalidFd,hcmpFd,hgetFd⟩ := byFd_put h.byFd_valid h.byFd_compare fd srv.heap.length
  obtain ⟨byId,hputId,hvalidId,hcmpId,hgetId⟩ := byId_put h.byId_valid h.byId_compare id srv.heap.length
  refine ⟨{ srv with heap := srv.heap ++ [⟨id,fd,trieCreate 1 topicAlphabet.length topicAlphabet⟩],
                     subs := llAddNthNode srv.subs 0 srv.heap.length, subsByFd := byFd, subsById := byId,
                     pfds := pfds, nfds := srv.nfds+1, maxNfds := m },?_,
    ⟨h.udp_eq,h.tcp_eq,?_,hle,hlen,?_,hvalidFd,hcmpFd,hvalidId,hcmpId⟩,?_⟩
  · rw [addNewSub,hadd]
    simp only [lift_ok_bind,hputFd,hputId,emit_bind]
    rfl
  · have := h.nfds_ge
    change 3 ≤ srv.nfds + 1
    omega
  · change llAddNthNode srv.subs 0 srv.heap.length = (List.range (srv.heap ++ [_]).length).reverse
    rw [List.length_append,List.length_singleton,List.range_succ,List.reverse_append,← h.subs_eq]
    simp [llAddNthNode]
  · simp only [Srv.registry,Registry.add,Srv.watched,hwatched,hgetFd,hgetId]

/-- `revive_sub_connection` -/
theorem reviveSubConnection_spec {p : Ptr} {sub : Sub} (hp : srv.heap[p]? = some sub) (fd : Int32)
    (addr : SockAddr) : ∃ srv',
    reviveSubConnection order srv p fd addr = ⟨[.print (connectedLine order sub.id addr)],.ok srv'⟩ ∧
      srv'.Sound u w ∧ srv'.registry = srv.registry.revive p sub fd := by
  have h' : ({ srv with heap := srv.heap.set p { sub with sockFd := fd } } : Srv).Sound u w :=
    ⟨h.udp_eq,h.tcp_eq,h.nfds_ge,h.nfds_le,h.pfds_length,by simpa using h.subs_eq,h.byFd_valid,
      h.byFd_compare,h.byId_valid,h.byId_compare⟩
  obtain ⟨pfds,m,hadd,hlen,hle,hwatched⟩ := addPfd_spec h' fd
  obtain ⟨byFd,hputFd,hvalidFd,hcmpFd,hgetFd⟩ := byFd_put h.byFd_valid h.byFd_compare fd p
  refine ⟨{ srv with heap := srv.heap.set p { sub with sockFd := fd }, subsByFd := byFd, pfds := pfds,
                     nfds := srv.nfds+1, maxNfds := m },?_,
    ⟨h.udp_eq,h.tcp_eq,?_,hle,hlen,h'.subs_eq,hvalidFd,hcmpFd,h.byId_valid,h.byId_compare⟩,?_⟩
  · rw [reviveSubConnection,Srv.deref,hp]
    simp only [defined_some,lift_ok_bind,hadd,hputFd,emit_bind]
    rfl
  · have := h.nfds_ge
    change 3 ≤ srv.nfds + 1
    omega
  · change Registry.mk _ (((pfds.take (srv.nfds+1)).drop 3).map Pollfd.fd) _ _ = _
    simp only [Srv.registry,Registry.revive]
    rw [hwatched,hgetFd]
    rfl

/-- `sub_closes_srv_connection` -/
theorem subClosesSrvConnection_spec (hc : srv.registry.Coherent) {p : Ptr} {sub : Sub}
    (hp : srv.heap[p]? = some sub) {i : ℕ} (hi : srv.watched[i]? = some sub.sockFd) {io : Io}
    (hio : sub.sockFd ∉ io.closeFails) : ∃ srv',
    subClosesSrvConnection srv io p (i+3) =
        ⟨[.close sub.sockFd,.print (chars "Client " ++ sub.id ++ chars " disconnected.\n")],.ok (srv',i+2)⟩ ∧
      srv'.Sound u w ∧ srv'.registry = srv.registry.disconnect p sub ∧
      srv'.entries = srv.entries.eraseIdx i := by
  have hge := h.nfds_ge
  have hle := h.nfds_le
  have hlen := h.pfds_length
  obtain ⟨pfd,hpfd,hsock⟩ : ∃ pfd, srv.entries[i]? = some pfd ∧ pfd.fd = sub.sockFd := by
    rwa [Srv.watched_eq,List.getElem?_map,Option.map_eq_some_iff] at hi
  obtain ⟨hlt,hpfd⟩ := pfds_of_entries hpfd
  obtain ⟨pfds,hshift,hlen',htake⟩ := shiftPfds_spec hlt (by omega : srv.nfds ≤ srv.pfds.length)
  obtain ⟨hvalid,hcmp,hget⟩ := byFd_remove h.byFd_valid h.byFd_compare sub.sockFd
  have hentries : (pfds.take (srv.nfds-1)).drop 3 = srv.entries.eraseIdx i := by
    rw [htake,eraseIdx_drop (by simp only [List.length_take]; omega)]
    rfl
  have hwatched : ((pfds.take (srv.nfds-1)).drop 3).map Pollfd.fd = srv.watched.erase sub.sockFd := by
    obtain ⟨hi',hsock'⟩ := List.getElem?_eq_some_iff.mp hi
    have hnodup : srv.watched.Nodup := hc.nodup
    rw [hentries,← List.eraseIdx_map,← hsock',hnodup.erase_getElem i hi']
    rfl
  refine ⟨{ srv with heap := srv.heap.set p { sub with sockFd := -1 },
                     subsByFd := htRemoveEntry srv.subsByFd sub.sockFd.toUInt32, pfds := pfds,
                     nfds := srv.nfds-1 },?_,?_,?_,hentries⟩
  · simp only [subClosesSrvConnection,Srv.deref,hp,defined_some,lift_ok_bind,close,if_neg hio,hpfd,hshift,
      hsock,emit_bind]
    rfl
  · refine ⟨h.udp_eq,h.tcp_eq,?_,?_,hlen'.trans hlen,by simpa using h.subs_eq,hvalid,hcmp,h.byId_valid,
      h.byId_compare⟩
    · change 3 ≤ srv.nfds - 1
      omega
    · change srv.nfds - 1 ≤ srv.maxNfds
      omega
  · simp only [Srv.registry,Registry.disconnect,Srv.watched,hwatched,hget]

/-- Replacing the trie of a client touches nothing else. -/
lemma sound_resubscribe {p : Ptr} {sub : Sub} (subscriptions : Trie topicAlphabet.length) :
    ({ srv with heap := srv.heap.set p { sub with subscriptions := subscriptions } } : Srv).Sound u w :=
  ⟨h.udp_eq,h.tcp_eq,h.nfds_ge,h.nfds_le,h.pfds_length,by simpa using h.subs_eq,h.byFd_valid,h.byFd_compare,
    h.byId_valid,h.byId_compare⟩

end Handlers

/-- The connection was accepted and the one `recv` returned an id that fits. -/
structure Connection.Proceeds (conn : Connection) (got : List UInt8) : Prop where
  fd_ne : conn.fd ≠ -1
  setsockopt_ok : conn.setsockoptFails = false
  received_eq : conn.received = some got
  fits : got.length ≤ maxIdSize

/-- The message to a subscriber whose connection the server closes. -/
def closeMsg : SrvMsg := ⟨closeSrvMsg,0,0,Buffer.zeroed _,Buffer.zeroed _⟩

/-- An id that fits is stored as it was received, up to its first NUL. -/
lemma receivedId_eq (stack : Buffer (maxIdSize+1)) {got : List UInt8} (hlen : got.length ≤ maxIdSize) :
    receivedId stack got = .ok (cString got) := by
  have hset : (stack.overwrite got).toList.set got.length 0 =
      got ++ 0 :: (stack.toList.drop got.length).tail := by
    have hrest : (stack.toList.drop got.length).length ≠ 0 := by
      rw [List.length_drop,stack.toList_length]
      omega
    rw [stack.overwrite_toList (by omega),List.set_append_right _ _ (le_refl _),Nat.sub_self]
    cases hd : stack.toList.drop got.length with
    | nil => simp [hd] at hrest
    | cons x rest => rfl
  rw [receivedId,if_neg (by omega),hset,readString_ok (by simp),cString_append_zero]

/-- When the first `recv` returns more than an id has, the terminator is written behind its array. -/
lemma handleListenTcpMsg_long {order : ByteOrder} {srv : Srv} {conn : Connection} {got : List UInt8}
    (hfd : conn.fd ≠ -1) (hopt : conn.setsockoptFails = false) (hgot : conn.received = some got)
    (hlong : maxIdSize < got.length) :
    handleListenTcpMsg order srv conn = ⟨[.accept conn.fd],.error .undefined⟩ := by
  simp [handleListenTcpMsg,hfd,hopt,hgot,receivedId,hlong]

section Connections
variable {u w : Int32} {srv : Srv} (h : srv.Sound u w) (hc : srv.registry.Coherent) (order : ByteOrder)
  {conn : Connection} {got : List UInt8} (hconn : conn.Proceeds got)

/-- Without an error every system call succeeded and the id fits. -/
lemma handleListenTcpMsg_ok {out : List Effect} {srv srv' : Srv}
    (hrun : handleListenTcpMsg order srv conn = ⟨out,.ok srv'⟩) : ∃ got, conn.Proceeds got := by
  by_cases hfd : conn.fd = -1
  · rw [handleListenTcpMsg,if_pos hfd] at hrun
    cases hrun
  · rw [handleListenTcpMsg,if_neg hfd] at hrun
    cases hopt : conn.setsockoptFails with
    | true =>
      simp [hopt] at hrun
    | false =>
      cases hgot : conn.received with
      | none => simp [hopt,hgot] at hrun
      | some got =>
        by_cases hlen : got.length ≤ maxIdSize
        · exact ⟨got,hfd,hopt,hgot,hlen⟩
        · simp [hopt,hgot,receivedId,not_le.mp hlen] at hrun

include hconn

lemma handleListenTcpMsg_eq : handleListenTcpMsg order srv conn = (do
    emit (.accept conn.fd)
    if htHasKey srv.subsById (cString got) then do
      let p ← lift (defined (htGet srv.subsById (cString got)))
      let oldSub ← lift (srv.deref p)
      if oldSub.sockFd = -1 then reviveSubConnection order srv p conn.fd conn.addr
      else do
        let _ ← srvClosesSubConnection conn.io conn.fd
        emit (.print (chars "Client " ++ oldSub.id ++ chars " already connected.\n"))
        pure srv
    else addNewSub order srv (cString got) conn.fd conn.addr) := by
  simp only [handleListenTcpMsg,if_neg hconn.fd_ne,hconn.setsockopt_ok,hconn.received_eq,
    receivedId_eq conn.stack hconn.fits,lift_ok_bind]
  rfl

include h

/-- First time connecting. -/
theorem handleListenTcpMsg_new (hid : srv.registry.byId (cString got) = none) : ∃ srv',
    handleListenTcpMsg order srv conn =
        ⟨[.accept conn.fd,.print (connectedLine order (cString got) conn.addr)],.ok srv'⟩ ∧
      srv'.Sound u w ∧ srv'.registry =
        srv.registry.add ⟨cString got,conn.fd,trieCreate 1 topicAlphabet.length topicAlphabet⟩ := by
  obtain ⟨srv',hrun,hsound,hreg⟩ := addNewSub_spec h order (cString got) conn.fd conn.addr
  have hkey : htHasKey srv.subsById (cString got) = false := by
    rw [htHasKey_eq]
    change (srv.registry.byId (cString got)).isSome = false
    rw [hid]
    rfl
  refine ⟨srv',?_,hsound,hreg⟩
  rw [handleListenTcpMsg_eq order hconn,hkey,emit_bind,if_neg (by simp),hrun]

variable {p : Ptr} {sub : Sub} (hid : srv.registry.byId (cString got) = some p) (hp : srv.heap[p]? = some sub)
include hid hp

omit h in
lemma handleListenTcpMsg_known : handleListenTcpMsg order srv conn = (do
    emit (.accept conn.fd)
    if sub.sockFd = -1 then reviveSubConnection order srv p conn.fd conn.addr
    else do
      let _ ← srvClosesSubConnection conn.io conn.fd
      emit (.print (chars "Client " ++ sub.id ++ chars " already connected.\n"))
      pure srv) := by
  have hget : htGet srv.subsById (cString got) = some p := hid
  have hkey : htHasKey srv.subsById (cString got) = true := by
    rw [htHasKey_eq,hget]
    rfl
  rw [handleListenTcpMsg_eq order hconn,hkey,if_pos rfl]
  simp only [hget,Srv.deref,hp,defined_some,lift_ok_bind]

/-- A past connection. -/
theorem handleListenTcpMsg_past (hold : sub.sockFd = -1) : ∃ srv',
    handleListenTcpMsg order srv conn =
        ⟨[.accept conn.fd,.print (connectedLine order sub.id conn.addr)],.ok srv'⟩ ∧
      srv'.Sound u w ∧ srv'.registry = srv.registry.revive p sub conn.fd := by
  obtain ⟨srv',hrun,hsound,hreg⟩ := reviveSubConnection_spec h order hp conn.fd conn.addr
  refine ⟨srv',?_,hsound,hreg⟩
  rw [handleListenTcpMsg_known order hconn hid hp,if_pos hold,emit_bind,hrun]

omit h in
/-- A present connection: the new one is told to close and closed, and the server stays as it was. -/
theorem handleListenTcpMsg_present (hlive : sub.sockFd ≠ -1) (hsend : conn.fd ∉ conn.io.sendFails)
    (hclose : conn.fd ∉ conn.io.closeFails) :
    handleListenTcpMsg order srv conn = ⟨[.accept conn.fd,.send conn.fd closeMsg,.close conn.fd,
      .print (chars "Client " ++ sub.id ++ chars " already connected.\n")],.ok srv⟩ := by
  rw [handleListenTcpMsg_known order hconn hid hp,if_neg hlive]
  simp only [srvClosesSubConnection,if_pos hconn.fd_ne,send,if_neg hsend,close,if_neg hclose]
  rfl

omit h in
/-- The refusal of a present connection fails when its `send` or its `close` does. -/
lemma handleListenTcpMsg_present_ok (hlive : sub.sockFd ≠ -1) {out : List Effect} {srv' : Srv}
    (hrun : handleListenTcpMsg order srv conn = ⟨out,.ok srv'⟩) :
    conn.fd ∉ conn.io.sendFails ∧ conn.fd ∉ conn.io.closeFails := by
  rw [handleListenTcpMsg_known order hconn hid hp,if_neg hlive] at hrun
  by_cases hsend : conn.fd ∈ conn.io.sendFails
  · simp [srvClosesSubConnection,hconn.fd_ne,send,hsend] at hrun
  · by_cases hclose : conn.fd ∈ conn.io.closeFails
    · simp [srvClosesSubConnection,hconn.fd_ne,send,hsend,close,hclose] at hrun
    · exact ⟨hsend,hclose⟩

end Connections

section Messages
variable {srv : Srv} (order : ByteOrder) {p : Ptr} {sub : Sub} {i : ℕ} {fd : Int32}

lemma pfds_of_watched (hi : srv.watched[i]? = some fd) : ∃ pfd, srv.pfds[i+3]? = some pfd ∧ pfd.fd = fd := by
  obtain ⟨pfd,hpfd,hfd⟩ : ∃ pfd, srv.entries[i]? = some pfd ∧ pfd.fd = fd := by
    rwa [Srv.watched_eq,List.getElem?_map,Option.map_eq_some_iff] at hi
  exact ⟨pfd,(pfds_of_entries hpfd).2,hfd⟩

/-- The handler finds the block of the client whose descriptor was ready. -/
theorem handleSubMsg_eq (hi : srv.watched[i]? = some fd) (hfd : srv.registry.byFd fd = some p)
    (hp : srv.heap[p]? = some sub) (msg : Incoming) : handleSubMsg order srv (i+3) msg =
      match msg.received with
      | none => halt (.die "recv() failed\n")
      | some got => executeSubMsg srv msg.io p (i+3) (SubMsg.ofBytes order (msg.stack.overwrite got)) := by
  obtain ⟨pfd,hpfd,hsock⟩ := pfds_of_watched hi
  have hget : htGet srv.subsByFd fd.toUInt32 = some p := hfd
  cases hgot : msg.received with
  | none => simp only [handleSubMsg,hpfd,hsock,hget,Srv.deref,hp,defined_some,lift_ok_bind,hgot]
  | some got => simp only [handleSubMsg,hpfd,hsock,hget,Srv.deref,hp,defined_some,lift_ok_bind,hgot]

variable (hp : srv.heap[p]? = some sub) (io : Io) (pfdIdx : ℕ) {msg : SubMsg}
include hp

lemma executeSubMsg_unsubscribe (ht : msg.type = unsubscribeSubMsg) : executeSubMsg srv io p pfdIdx msg = (do
    let topic ← lift (readString msg.topic.toList)
    let subscriptions ← lift (rmvSubscription sub.subscriptions topic)
    pure ({ srv with heap := srv.heap.set p { sub with subscriptions := subscriptions } },pfdIdx)) := by
  simp only [executeSubMsg,if_pos ht,Srv.deref,hp,defined_some,lift_ok_bind]

lemma executeSubMsg_subscribe (ht : msg.type = subscribeSubMsg) : executeSubMsg srv io p pfdIdx msg = (do
    let topic ← lift (readString msg.topic.toList)
    let subscriptions ← lift (addSubscription sub.subscriptions topic)
    pure ({ srv with heap := srv.heap.set p { sub with subscriptions := subscriptions } },pfdIdx)) := by
  have hne : msg.type ≠ unsubscribeSubMsg := by
    rw [ht]
    decide
  simp only [executeSubMsg,if_neg hne,if_pos ht,Srv.deref,hp,defined_some,lift_ok_bind]

omit hp in
lemma executeSubMsg_close (ht : msg.type = closeSubMsg) :
    executeSubMsg srv io p pfdIdx msg = subClosesSrvConnection srv io p pfdIdx := by
  have hun : msg.type ≠ unsubscribeSubMsg := by
    rw [ht]
    decide
  have hsub : msg.type ≠ subscribeSubMsg := by
    rw [ht]
    decide
  simp only [executeSubMsg,if_neg hun,if_neg hsub,if_pos ht]

omit hp in
lemma executeSubMsg_other (hun : msg.type ≠ unsubscribeSubMsg) (hsub : msg.type ≠ subscribeSubMsg)
    (hclose : msg.type ≠ closeSubMsg) : executeSubMsg srv io p pfdIdx msg = pure (srv,pfdIdx) := by
  simp only [executeSubMsg,if_neg hun,if_neg hsub,if_neg hclose]

/-- A failing `close` stops the server. -/
lemma subClosesSrvConnection_ok {out : List Effect} {r : Srv × ℕ}
    (hrun : subClosesSrvConnection srv io p pfdIdx = ⟨out,.ok r⟩) : sub.sockFd ∉ io.closeFails := by
  intro hfail
  simp [subClosesSrvConnection,Srv.deref,hp,close,hfail] at hrun

end Messages

end ClientServerApp.Server
