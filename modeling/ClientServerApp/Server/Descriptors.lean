import ClientServerApp.Server.Sessions
import ClientServerApp.Library.Accounts

/-! Descriptors from `accept` to `close`, over whole runs up to the exit command. -/
namespace ClientServerApp.Server
open Traced Runs Accounts

/-- What an effect does to a descriptor. -/
def Effect.use : Effect → Option (Use Int32)
  | .accept fd => some (.acquire fd)
  | .close fd => some (.release fd)
  | _ => none

/-- The uses of descriptors in a log. -/
def uses (t : List Effect) : List (Use Int32) := t.filterMap Effect.use

section Uses
variable {base : Finset Int32} {t t' : List Effect}

lemma uses_append : uses (t ++ t') = uses t ++ uses t' := List.filterMap_append

lemma openFds_eq_held : openFds base t = held base (uses t) := by
  induction t generalizing base with
  | nil => rfl
  | cons e t ih => cases e <;> exact ih

lemma acquire_mem_uses {fd : Int32} : .acquire fd ∈ uses t ↔ .accept fd ∈ t := by
  rw [uses,List.mem_filterMap]
  constructor
  · rintro ⟨e,he,huse⟩
    cases e <;> cases huse
    exact he
  · exact fun h => ⟨_,h,rfl⟩

lemma uses_of_sends (h : ∀ e ∈ t, ∃ fd msg, e = .send fd msg) : uses t = [] := by
  rw [uses,List.filterMap_eq_nil_iff]
  intro e he
  obtain ⟨fd,msg,rfl⟩ := h e he
  rfl

/-- The `close` calls on a descriptor before it is accepted again. -/
lemma count_close_eq (fd : Int32) (t : List Effect) :
    (t.takeWhile (· ≠ .accept fd)).count (.close fd) = releases fd (uses t) := by
  induction t with
  | nil => rfl
  | cons e t ih =>
    cases e with
    | accept g =>
      change _ = releases fd (.acquire g :: uses t)
      by_cases hg : g = fd
      · simp [hg]
      · rw [releases_acquire_ne hg,← ih]
        simp [hg]
    | close g =>
      change _ = releases fd (.release g :: uses t)
      by_cases hg : g = fd
      · rw [hg,releases_release_self,← ih]
        simp
      · rw [releases_release_ne hg,← ih]
        simp [hg]
    | send g msg =>
      change _ = releases fd (uses t)
      rw [← ih]
      simp
    | print line =>
      change _ = releases fd (uses t)
      rw [← ih]
      simp

end Uses

/-- The descriptors of the connected clients. -/
def connected (subs : List Sub) : List Int32 := (subs.filter (·.sockFd ≠ -1)).map Sub.sockFd

/-- What a connected client sees of the exit command. -/
def farewell (fd : Int32) : List Effect := [.send fd closeMsg,.close fd]

/-- What `stop_program` does when no call fails. -/
def farewells (u w : Int32) (fds : List Int32) : List Effect := fds.flatMap farewell ++ [.close u,.close w]

section Stop
variable {srv : Srv}

lemma connected_cons (sub : Sub) (subs : List Sub) :
    connected (sub :: subs) = if sub.sockFd = -1 then connected subs else sub.sockFd :: connected subs := by
  by_cases h : sub.sockFd = -1 <;> simp [connected,h]

lemma mem_connected {subs : List Sub} {fd : Int32} :
    fd ∈ connected subs ↔ ∃ sub ∈ subs, sub.sockFd = fd ∧ fd ≠ -1 := by
  simp only [connected,List.mem_map,List.mem_filter,decide_eq_true_eq]
  constructor
  · rintro ⟨sub,⟨hsub,hne⟩,rfl⟩
    exact ⟨sub,hsub,rfl,hne⟩
  · rintro ⟨sub,hsub,rfl,hne⟩
    exact ⟨sub,⟨hsub,hne⟩,rfl⟩

/-- After `srv_closes_sub_connection` the descriptor is -1 in any case. -/
lemma srvClosesSubConnection_eq (fd : Int32) :
    srvClosesSubConnection .ok fd = ⟨if fd = -1 then [] else farewell fd,.ok (-1)⟩ := by
  by_cases h : fd = -1
  · subst h
    rfl
  · rw [srvClosesSubConnection,if_pos h,if_neg h]
    rfl

/-- The loop tells each connected client to close, closes its connection and resets its descriptor. -/
lemma closeAll_eq {ps : List Ptr} (hnodup : ps.Nodup) (hps : ∀ p ∈ ps, p < srv.heap.length) : ∃ heap',
    closeAll .ok srv ps = ⟨(connected (ps.filterMap fun p => srv.heap[p]?)).flatMap farewell,
        .ok { srv with heap := heap' }⟩ ∧
      (∀ p ∈ ps, ∃ sub, heap'[p]? = some sub ∧ sub.sockFd = -1) ∧ ∀ p ∉ ps, heap'[p]? = srv.heap[p]? := by
  induction ps generalizing srv with
  | nil => exact ⟨srv.heap,rfl,by simp,fun _ _ => rfl⟩
  | cons p ps ih =>
    obtain ⟨hp,hnodup⟩ := List.nodup_cons.mp hnodup
    obtain ⟨sub,hsub⟩ : ∃ sub, srv.heap[p]? = some sub := ⟨_,List.getElem?_eq_getElem (hps p List.mem_cons_self)⟩
    have hset := getElem?_set_of_some hsub { sub with sockFd := -1 }
    obtain ⟨heap',hrun,hclosed,hkept⟩ := @ih { srv with heap := srv.heap.set p { sub with sockFd := -1 } } hnodup
      fun q hq => by simpa using hps q (List.mem_cons_of_mem _ hq)
    have hrest : (ps.filterMap fun q => (srv.heap.set p { sub with sockFd := -1 })[q]?) =
        ps.filterMap fun q => srv.heap[q]? := by
      apply List.filterMap_congr
      intro q hq
      rw [hset,if_neg]
      rintro rfl
      exact hp hq
    refine ⟨heap',?_,?_,?_⟩
    · rw [closeAll,Srv.deref,hsub,defined_some,lift_ok_bind,srvClosesSubConnection_eq,mk_ok_bind,hrun,hrest,
        List.filterMap_cons_some hsub,connected_cons]
      by_cases hsock : sub.sockFd = -1
      · rw [if_pos hsock,if_pos hsock]
        rfl
      · rw [if_neg hsock,if_neg hsock]
        rfl
    · intro q hq
      rcases List.mem_cons.mp hq with rfl | hq
      · exact ⟨_,((hkept q hp).trans (hset q)).trans (if_pos rfl),rfl⟩
      · exact hclosed q hq
    · intro q hq
      obtain ⟨hne,hq⟩ := not_or.mp (List.mem_cons.not.mp hq)
      exact ((hkept q hq).trans (hset q)).trans (if_neg hne)

/-- `free_sub` closes nothing after that. -/
lemma freeSubs_eq (io : Io) {ps : List Ptr} (hps : ∀ p ∈ ps, ∃ sub, srv.heap[p]? = some sub ∧ sub.sockFd = -1) :
    freeSubs io srv ps = pure () := by
  induction ps with
  | nil => rfl
  | cons p ps ih =>
    obtain ⟨sub,hsub,hsock⟩ := hps p List.mem_cons_self
    rw [freeSubs,Srv.deref,hsub,defined_some,lift_ok_bind,if_neg (not_not.mpr hsock)]
    exact ih fun q hq => hps q (List.mem_cons_of_mem _ hq)

theorem stopProgram_eq {u w : Int32} (h : srv.Sound u w) :
    stopProgram srv .ok = ⟨farewells u w (connected srv.heap.reverse),.error .exit⟩ := by
  have hnodup : srv.subs.Nodup := by
    rw [h.subs_eq]
    exact List.nodup_reverse.mpr List.nodup_range
  obtain ⟨heap',hrun,hclosed,-⟩ := @closeAll_eq srv _ hnodup fun _ => h.lt_of_mem_subs
  rw [h.subs_eq,filterMap_range_reverse,← h.subs_eq] at hrun
  rw [stopProgram,hrun,mk_ok_bind,@freeSubs_eq { srv with heap := heap' } .ok _ hclosed,pure_bind]
  simp only [close,Io.ok,List.not_mem_nil,if_false,emit_bind,h.udp_eq,h.tcp_eq]
  rfl

end Stop

section Accounting
variable {u w : Int32} {order : ByteOrder} {es : List Event} {t : List Effect} {srv : Srv}

/-- The uses of descriptors in a log are in balance, and `accept` returns neither -1 nor a descriptor from
the start. -/
structure Accounted (base : Finset Int32) (t : List Effect) : Prop where
  balanced : Balanced base (uses t)
  accepted {fd : Int32} : .accept fd ∈ t → fd ≠ -1 ∧ fd ∉ base

namespace Accounted

lemma nil (base : Finset Int32) : Accounted base [] := ⟨trivial,fun h => absurd h List.not_mem_nil⟩

section Log
variable {base : Finset Int32} {out t₁ t₂ : List Effect} {fd : Int32}

lemma append (h : Accounted base t) (hbase : base ⊆ openFds base t) (hout : Accounted (openFds base t) out) :
    Accounted base (t ++ out) where
  balanced := by
    rw [uses_append,balanced_append,← openFds_eq_held]
    exact ⟨h.balanced,hout.balanced⟩
  accepted hmem := by
    rcases List.mem_append.mp hmem with hmem | hmem
    · exact h.accepted hmem
    · obtain ⟨hne,hnew⟩ := hout.accepted hmem
      exact ⟨hne,fun hfd => hnew (hbase hfd)⟩

/-- When only descriptors from the start are left open, each accepted one is closed once. -/
lemma closed_once (h : Accounted base (t₁ ++ .accept fd :: t₂))
    (hend : openFds base (t₁ ++ .accept fd :: t₂) ⊆ base) :
    (t₂.takeWhile (· ≠ .accept fd)).count (.close fd) = 1 := by
  have huses : uses (t₁ ++ .accept fd :: t₂) = uses t₁ ++ .acquire fd :: uses t₂ := uses_append
  have hfree : fd ∉ openFds base (t₁ ++ .accept fd :: t₂) := fun hmem => (h.accepted (by simp)).2 (hend hmem)
  have hbalanced := h.balanced
  rw [openFds_eq_held,huses] at hfree
  rw [huses] at hbalanced
  rw [count_close_eq]
  exact hbalanced.released_once hfree

/-- Only an open descriptor is closed, and it is not -1. -/
lemma open_of_close (h : Accounted base (t₁ ++ .close fd :: t₂)) (hbase : -1 ∉ base) :
    fd ≠ -1 ∧ fd ∈ openFds base t₁ := by
  have huses : uses (t₁ ++ .close fd :: t₂) = uses t₁ ++ .release fd :: uses t₂ := uses_append
  have hbalanced := h.balanced
  rw [huses] at hbalanced
  have hheld := hbalanced.held_of_release
  refine ⟨?_,by rwa [openFds_eq_held]⟩
  rintro rfl
  rcases mem_held hheld with hmem | hmem
  · exact hbase hmem
  · exact (h.accepted (List.mem_append_left _ (acquire_mem_uses.mp hmem))).1 rfl

end Log

end Accounted

lemma Inv.base_subset (h : Inv u w t srv) : baseFds u w ⊆ openFds (baseFds u w) t :=
  fun fd hfd => (h.fds.open_iff fd).mpr (.inl hfd)

/-- No effect of one step breaks the balance. -/
theorem Inv.step_accounted (h : Inv u w t srv) {e : Event} (ha : Admissible (baseFds u w) t e) {out : List Effect}
    {srv' : Srv} (hrun : Server.step order srv e = ⟨out,.ok srv'⟩) : Accounted (openFds (baseFds u w) t) out := by
  cases h.transition hrun with
  | command => exact ⟨trivial,by simp⟩
  | @datagram dgram _ hrun' =>
    have hout := handleUdpMsg_sends order srv dgram
    rw [hrun'] at hout
    refine ⟨?_,fun hmem => ?_⟩
    · rw [uses_of_sends hout]
      exact trivial
    · obtain ⟨_,_,heq⟩ := hout _ hmem
      cases heq
  | first hconn _ _ _ => exact ⟨⟨ha.1 hconn.fd_ne,trivial⟩,by simpa using ⟨hconn.fd_ne,ha.1 hconn.fd_ne⟩⟩
  | again hconn _ _ _ _ _ => exact ⟨⟨ha.1 hconn.fd_ne,trivial⟩,by simpa using ⟨hconn.fd_ne,ha.1 hconn.fd_ne⟩⟩
  | refused hconn _ _ _ =>
    exact ⟨⟨ha.1 hconn.fd_ne,Finset.mem_insert_self _ _,trivial⟩,by simpa using ⟨hconn.fd_ne,ha.1 hconn.fd_ne⟩⟩
  | ignored => exact .nil _
  | resubscribed => exact .nil _
  | disconnected _ _ _ _ _ hmem _ _ => exact ⟨⟨(h.fds.open_iff _).mpr (.inr hmem),trivial⟩,by simp⟩

theorem reachable_accounted (run : Run (machine order u w) (Admissible (baseFds u w)) es t srv) :
    Inv u w t srv ∧ Accounted (baseFds u w) t := by
  refine run.invariant (fun t srv => Inv u w t srv ∧ Accounted (baseFds u w) t) ⟨inv_init,.nil _⟩ ?_
  rintro t srv e out srv' ⟨h,hacc⟩ ha hrun
  exact ⟨h.step ha hrun,hacc.append h.base_subset (h.step_accounted ha hrun)⟩

section Farewells
variable (fds : List Int32)

lemma uses_farewells : uses (fds.flatMap farewell) = fds.map .release := by
  induction fds with
  | nil => rfl
  | cons fd fds ih =>
    rw [List.flatMap_cons,uses_append,ih]
    rfl

lemma mem_farewells {e : Effect} :
    e ∈ fds.flatMap farewell ↔ ∃ fd ∈ fds, e = .send fd closeMsg ∨ e = .close fd := by
  simp [farewell,List.mem_flatMap]

lemma count_farewells (fd : Int32) : (fds.flatMap farewell).count (.send fd closeMsg) = fds.count fd := by
  induction fds with
  | nil => rfl
  | cons g fds ih =>
    rw [List.flatMap_cons,List.count_append,ih,Nat.add_comm,List.count_cons]
    by_cases hg : g = fd <;> simp [farewell,hg]

end Farewells

namespace Inv
variable (h : Inv u w t srv)
include h

lemma mem_connected_iff (fd : Int32) : fd ∈ connected srv.heap.reverse ↔ fd ∈ srv.watched := by
  rw [mem_connected]
  constructor
  · rintro ⟨sub,hsub,hsock,hne⟩
    obtain ⟨p,hp⟩ := List.mem_iff_getElem?.mp (List.mem_reverse.mp hsub)
    refine (h.coherent.watched_iff fd).mpr ?_
    rw [(h.coherent.byFd_iff fd p).mpr ⟨hne,sub,hp,hsock⟩]
    rfl
  · intro hfd
    obtain ⟨_,p,sub,-,-,-,hp,hsock,hne⟩ := h.entry hfd
    exact ⟨sub,List.mem_reverse.mpr (List.mem_of_getElem? hp),hsock,hne⟩

lemma connected_nodup : (connected srv.heap.reverse).Nodup :=
  h.coherent.sockFds_nodup fun sub hsub => by simpa using hsub

lemma mem_openFds_iff (fd : Int32) :
    fd ∈ openFds (baseFds u w) t ↔ fd ∈ baseFds u w ∨ fd ∈ connected srv.heap.reverse := by
  rw [h.fds.open_iff,h.mem_connected_iff]

lemma connected_apart {fd : Int32} (hfd : fd ∈ connected srv.heap.reverse) : fd ∉ baseFds u w :=
  h.fds.apart ((h.mem_connected_iff fd).mp hfd)

lemma connected_sockets_nodup (huw : u ≠ w) : (connected srv.heap.reverse ++ [u,w]).Nodup := by
  refine List.nodup_append'.mpr ⟨h.connected_nodup,by simp [huw],?_⟩
  intro fd hfd hsock
  refine h.connected_apart hfd ?_
  rcases List.mem_cons.mp hsock with rfl | hsock
  · simp [baseFds]
  · simp [baseFds,List.mem_singleton.mp hsock]

end Inv

lemma uses_stop (u w : Int32) (fds : List Int32) : uses (farewells u w fds) = (fds ++ [u,w]).map .release := by
  rw [farewells,uses_append,uses_farewells,List.map_append]
  rfl

/-- The exit command closes open descriptors only. -/
lemma Inv.exit_accounted (h : Inv u w t srv) (huw : u ≠ w) (hacc : Accounted (baseFds u w) t) :
    Accounted (baseFds u w) (t ++ farewells u w (connected srv.heap.reverse)) := by
  refine hacc.append h.base_subset ⟨?_,fun hmem => ?_⟩
  · rw [uses_stop]
    apply balanced_release_all (h.connected_sockets_nodup huw)
    intro fd hfd
    rw [h.mem_openFds_iff]
    rcases List.mem_append.mp hfd with hfd | hfd
    · exact .inr hfd
    · refine .inl ?_
      rcases List.mem_cons.mp hfd with rfl | hfd
      · simp [baseFds]
      · simp [baseFds,List.mem_singleton.mp hfd]
  · rw [← acquire_mem_uses,uses_stop] at hmem
    simp at hmem

/-- The standard streams are left open. -/
lemma Inv.exit_openFds (h : Inv u w t srv) :
    openFds (baseFds u w) (t ++ farewells u w (connected srv.heap.reverse)) = ((baseFds u w).erase u).erase w := by
  rw [openFds_append,openFds_eq_held,uses_stop,held_release_all]
  ext fd
  simp only [Finset.mem_sdiff,h.mem_openFds_iff,List.mem_toFinset,List.mem_append,List.mem_cons,List.not_mem_nil,
    or_false,Finset.mem_erase]
  constructor
  · rintro ⟨hfd,hno⟩
    obtain ⟨hconn,hsock⟩ := not_or.mp hno
    obtain ⟨hneu,hnew⟩ := not_or.mp hsock
    exact ⟨hnew,hneu,hfd.resolve_right hconn⟩
  · rintro ⟨hnew,hneu,hbase⟩
    exact ⟨.inl hbase,not_or.mpr ⟨fun hconn => h.connected_apart hconn hbase,not_or.mpr ⟨hneu,hnew⟩⟩⟩

lemma neg_one_not_mem_baseFds (hu : u ≠ -1) (hw : w ≠ -1) : -1 ∉ baseFds u w := by
  have hstd : (-1 : Int32) ∉ ({0,1,2} : Finset Int32) := by decide
  simp only [Finset.mem_insert,Finset.mem_singleton,not_or] at hstd
  simp only [baseFds,Finset.mem_insert,Finset.mem_singleton,not_or]
  exact ⟨hstd.1,hstd.2.1,hstd.2.2,hu.symm,hw.symm⟩

end Accounting

/-- The account of the descriptors over a run up to the exit command: each accepted descriptor is closed once
before it is accepted again or the server ends, only open descriptors are closed, and in the end the standard
streams are left. The exit command sends one message to each connected client and none to another. -/
theorem descriptors_accounted {u w : Int32} (hu : u ≠ -1) (hw : w ≠ -1) (huw : u ≠ w) {order : ByteOrder}
    {es : List Event} {t : List Effect} {srv : Srv}
    (run : Run (machine order u w) (Admissible (baseFds u w)) es t srv) {line : List UInt8}
    (hline : tokens line = [chars "exit"]) :
    ∃ out, step order srv (.command .ok (some line)) = ⟨out,.error .exit⟩ ∧
      (∀ t₁ fd t₂, t ++ out = t₁ ++ .accept fd :: t₂ →
        (t₂.takeWhile (· ≠ .accept fd)).count (.close fd) = 1) ∧
      (∀ t₁ fd t₂, t ++ out = t₁ ++ .close fd :: t₂ → fd ≠ -1 ∧ fd ∈ openFds (baseFds u w) t₁) ∧
      openFds (baseFds u w) (t ++ out) = ((baseFds u w).erase u).erase w ∧
      (∀ sub ∈ srv.heap, sub.sockFd ≠ -1 → out.count (.send sub.sockFd closeMsg) = 1) ∧
      ∀ fd msg, .send fd msg ∈ out → msg = closeMsg ∧ ∃ sub ∈ srv.heap, sub.sockFd = fd ∧ fd ≠ -1 := by
  obtain ⟨h,hacc⟩ := reachable_accounted run
  have hexit : step order srv (.command .ok (some line)) =
      ⟨farewells u w (connected srv.heap.reverse),.error .exit⟩ := by
    rw [step,handleStdinMsg,hline]
    exact stopProgram_eq h.sound
  have hlog := h.exit_accounted huw hacc
  have hend := h.exit_openFds
  refine ⟨_,hexit,?_,?_,hend,?_,?_⟩
  · intro t₁ fd t₂ heq
    rw [heq] at hlog hend
    apply hlog.closed_once
    rw [hend]
    exact (Finset.erase_subset _ _).trans (Finset.erase_subset _ _)
  · intro t₁ fd t₂ heq
    rw [heq] at hlog
    exact hlog.open_of_close (neg_one_not_mem_baseFds hu hw)
  · intro sub hsub hne
    have hmem : sub.sockFd ∈ connected srv.heap.reverse :=
      mem_connected.mpr ⟨sub,List.mem_reverse.mpr hsub,rfl,hne⟩
    rw [farewells,List.count_append,count_farewells,List.count_eq_one_of_mem h.connected_nodup hmem]
    rfl
  · intro fd msg hmem
    rcases List.mem_append.mp hmem with hmem | hmem
    · obtain ⟨g,hg,heq | heq⟩ := (mem_farewells _).mp hmem
      · cases heq
        obtain ⟨sub,hsub,hsock⟩ := mem_connected.mp hg
        exact ⟨rfl,sub,List.mem_reverse.mp hsub,hsock⟩
      · cases heq
    · simp at hmem

/-- Client `d` of the three clients closes its connection. -/
def closedEvents : List Event := severalEvents ++ [.message 6 (wholeMessage .little ⟨closeSubMsg,Buffer.zeroed _⟩)]

/-- That run, ended by the exit command. -/
theorem descriptors_accounted_subscribed : ∃ t srv,
    Run (machine .little 3 4) (Admissible (baseFds 3 4)) closedEvents t srv ∧ srv.watched = [5,7] ∧
    ∃ out, step .little srv (.command .ok (some (chars "exit"))) = ⟨out,.error .exit⟩ ∧
      (∀ t₁ fd t₂, t ++ out = t₁ ++ .accept fd :: t₂ →
        (t₂.takeWhile (· ≠ .accept fd)).count (.close fd) = 1) ∧
      openFds (baseFds 3 4) (t ++ out) = {0,1,2} := by
  obtain ⟨t,srv,run,hwatched⟩ := @exists_orderly_run closedEvents (fun r => r.2.watched = [5,7]) (by decide +kernel)
  have run' := run.mono fun _ _ _ ho => ho.admissible
  obtain ⟨out,hexit,honce,-,hend,-⟩ := @descriptors_accounted 3 4 (by decide) (by decide) (by decide) .little _ _ _
    run' (chars "exit") (by decide)
  refine ⟨t,srv,run',of_decide_eq_true hwatched,out,hexit,honce,?_⟩
  rw [hend]
  decide

end ClientServerApp.Server
