import ClientServerApp.Server.PollPass
import ClientServerApp.Server.Unpolled

/-! The loop of `main`: a call of `poll` and a call of each handler whose descriptor is ready. It is a run of the
server on what the handlers read, in the order in which it calls them. -/
namespace ClientServerApp.Server
open Traced Runs

/-- What one call of `poll` reports and what the calls of the handlers then return. -/
structure Wakeup where
  revents : ℕ → UInt16
  io : Io
  line : Option (List UInt8)
  dgram : Datagram
  conn : Connection
  read : Int32 → Incoming

/-- `poll` writes into the entries that it is told of. -/
def Srv.poll (srv : Srv) (revents : ℕ → UInt16) : Srv :=
  { srv with pfds := srv.pfds.mapIdx fun i pfd => if i < srv.nfds then { pfd with revents := revents i } else pfd }

/-- `main` looks at an entry and calls the handler for it. -/
def ifReady (srv : Srv) (i : ℕ) (handler : Srv → Action Srv) : Action Srv := do
  let pfd ← lift (defined srv.pfds[i]?)
  if pfd.ready then handler srv else pure srv

/-- A round of the loop. -/
def mainRound (order : ByteOrder) (srv : Srv) (wake : Wakeup) : Action Srv := do
  let srv ← ifReady (srv.poll wake.revents) 0 fun srv => handleStdinMsg srv wake.io wake.line
  let srv ← ifReady srv 1 fun srv => do
    handleUdpMsg order srv wake.dgram
    pure srv
  let srv ← ifReady srv 2 fun srv => handleListenTcpMsg order srv wake.conn
  let (_,srv) ← pollPass order wake.read srv.nfds srv 3
  pure srv

def mainLoop (order : ByteOrder) (udpSockFd tcpSockFd : Int32) : Machine Srv Wakeup Halt Effect where
  init := initSrv udpSockFd tcpSockFd
  step := mainRound order

/-- `poll` found something to read at the entry. -/
def Wakeup.finds (wake : Wakeup) (i : ℕ) : Bool := wake.revents i &&& pollin ≠ 0

/-- The handler calls of a round. -/
def Wakeup.events (wake : Wakeup) (srv : Srv) : List Event :=
  (if wake.finds 0 then [.command wake.io wake.line] else []) ++
  (if wake.finds 1 then [.datagram wake.dgram] else []) ++
  (if wake.finds 2 then [.connection wake.conn] else []) ++
  readEvents wake.read (srv.poll wake.revents).entries

section Poll
variable (srv : Srv) (revents : ℕ → UInt16)

lemma poll_fds : (srv.poll revents).pfds.map Pollfd.fd = srv.pfds.map Pollfd.fd := by
  apply List.ext_getElem?
  intro i
  simp only [Srv.poll,List.getElem?_map,List.getElem?_mapIdx,Option.map_map]
  congr 1
  funext pfd
  simp only [Function.comp_apply]
  split_ifs <;> rfl

lemma poll_watched : (srv.poll revents).watched = srv.watched := watched_polled (poll_fds srv revents)

lemma poll_unpolled : (srv.poll revents).unpolled = srv.unpolled := by
  have hpfds : (srv.poll revents).pfds.map Pollfd.unpolled = srv.pfds.map Pollfd.unpolled := by
    apply List.ext_getElem?
    intro i
    simp only [Srv.poll,List.getElem?_map,List.getElem?_mapIdx,Option.map_map]
    congr 1
    funext pfd
    simp only [Function.comp_apply]
    split_ifs <;> rfl
  unfold Srv.unpolled
  rw [hpfds]
  rfl

variable {srv}

/-- The first three entries say what was found. -/
lemma poll_ready {u w : Int32} (h : srv.Sound u w) (wake : Wakeup) {i : ℕ} (hi : i < 3) :
    ∃ pfd, (srv.poll wake.revents).pfds[i]? = some pfd ∧ pfd.ready = wake.finds i := by
  have hge := h.nfds_ge
  have hle := h.nfds_le
  have hlen := h.pfds_length
  have hlt : i < srv.pfds.length := by omega
  have hnfds : i < srv.nfds := by omega
  refine ⟨{ srv.pfds[i] with revents := wake.revents i },?_,rfl⟩
  simp only [Srv.poll,List.getElem?_mapIdx,List.getElem?_eq_getElem hlt,Option.map_some,if_pos hnfds]

end Poll

section Entries
variable {u w : Int32} {order : ByteOrder} {t out : List Effect} {srv srv' : Srv}

/-- A new entry is the last one, and `poll` has found nothing there. -/
lemma addPfd_entries (h : srv.Sound u w) {fd : Int32} (hadd : addPfd srv fd = .ok srv') :
    srv'.entries = srv.entries ++ [⟨fd,pollin,0⟩] := by
  have hge := h.nfds_ge
  have hle := h.nfds_le
  have hlen := h.pfds_length
  have hgrown : srv.grown.nfds = srv.nfds ∧ srv.grown.pfds.take srv.nfds = srv.pfds.take srv.nfds ∧
      srv.nfds < srv.grown.pfds.length := by
    unfold Srv.grown
    split_ifs with hfull
    · refine ⟨rfl,List.take_append_of_le_length (by omega),?_⟩
      rw [List.length_append,freshPfds,List.length_replicate]
      omega
    · exact ⟨rfl,rfl,by omega⟩
  obtain ⟨hnfds,htake,hlt⟩ := hgrown
  have heq : addPfd srv fd = writePfd srv.grown.pfds srv.grown.nfds ⟨fd,pollin,0⟩ >>= fun pfds =>
    .ok { srv.grown with pfds := pfds, nfds := srv.grown.nfds+1 } := rfl
  rw [heq,hnfds,writePfd,if_pos hlt] at hadd
  cases hadd
  have hthree : 3 ≤ (srv.pfds.take srv.nfds).length := by
    rw [List.length_take]
    omega
  change ((srv.grown.pfds.set srv.nfds ⟨fd,pollin,0⟩).take (srv.nfds+1)).drop 3 = _
  rw [List.take_add_one,List.take_set_of_le (le_refl _),List.getElem?_set_self hlt,htake,
    List.drop_append_of_le_length hthree]
  rfl

lemma handleListenTcpMsg_entries (h : srv.Sound u w) {conn : Connection}
    (hrun : handleListenTcpMsg order srv conn = ⟨out,.ok srv'⟩) :
    srv'.entries = srv.entries ∨ srv'.entries = srv.entries ++ [⟨conn.fd,pollin,0⟩] := by
  obtain ⟨got,hconn⟩ := handleListenTcpMsg_ok order hrun
  rw [handleListenTcpMsg_eq order hconn] at hrun
  obtain ⟨_,_,_,-,hrun,-⟩ := bind_eq_ok.mp hrun
  split_ifs at hrun with hkey
  · obtain ⟨p,-,hrun⟩ := lift_bind_eq_ok.mp hrun
    obtain ⟨sub,hsub,hrun⟩ := lift_bind_eq_ok.mp hrun
    split_ifs at hrun with hold
    · rw [reviveSubConnection] at hrun
      obtain ⟨sub',-,hrun⟩ := lift_bind_eq_ok.mp hrun
      obtain ⟨srv₁,hadd,hrun⟩ := lift_bind_eq_ok.mp hrun
      obtain ⟨byFd,-,hrun⟩ := lift_bind_eq_ok.mp hrun
      cases hrun
      have h' : ({ srv with heap := srv.heap.set p { sub' with sockFd := conn.fd } } : Srv).Sound u w :=
        ⟨h.udp_eq,h.tcp_eq,h.nfds_ge,h.nfds_le,h.pfds_length,by simpa using h.subs_eq,h.byFd_valid,
          h.byFd_compare,h.byId_valid,h.byId_compare⟩
      have hentries := addPfd_entries h' hadd
      exact .inr hentries
    · obtain ⟨_,_,_,-,hrun,-⟩ := bind_eq_ok.mp hrun
      cases hrun
      exact .inl rfl
  · rw [addNewSub] at hrun
    obtain ⟨srv₁,hadd,hrun⟩ := lift_bind_eq_ok.mp hrun
    obtain ⟨byFd,-,hrun⟩ := lift_bind_eq_ok.mp hrun
    obtain ⟨byId,-,hrun⟩ := lift_bind_eq_ok.mp hrun
    cases hrun
    have hentries := addPfd_entries h hadd
    exact .inr hentries

/-- The call for an entry leaves the index and the entries, or removes the entry and steps the index back. -/
lemma handleSubMsg_moves (h : Inv u w t srv) {i idx : ℕ} {pfd : Pollfd} (hi : srv.entries[i]? = some pfd)
    {msg : Incoming} (hrun : handleSubMsg order srv (i+3) msg = ⟨out,.ok (srv',idx)⟩) :
    idx = i+3 ∧ srv'.entries = srv.entries ∨ idx = i+2 ∧ srv'.entries = srv.entries.eraseIdx i := by
  have hwatched : srv.watched[i]? = some pfd.fd := by rw [Srv.watched_eq,List.getElem?_map,hi,Option.map_some]
  obtain ⟨p,sub,hbyFd,hp,hsock,-⟩ := h.coherent.byFd_of_mem (List.mem_of_getElem? hwatched)
  rw [handleSubMsg_eq order hwatched hbyFd hp] at hrun
  cases hgot : msg.received with
  | none => simp [hgot] at hrun
  | some got =>
    simp only [hgot] at hrun
    rcases (SubMsg.ofBytes order (msg.stack.overwrite got)).type_cases with hun | hsub | hclose | ⟨hun,hsub,hclose⟩
    · rw [executeSubMsg_unsubscribe hp _ _ hun] at hrun
      obtain ⟨topic,-,hrun⟩ := lift_bind_eq_ok.mp hrun
      obtain ⟨subscriptions,-,hrun⟩ := lift_bind_eq_ok.mp hrun
      cases hrun
      exact .inl ⟨rfl,rfl⟩
    · rw [executeSubMsg_subscribe hp _ _ hsub] at hrun
      obtain ⟨topic,-,hrun⟩ := lift_bind_eq_ok.mp hrun
      obtain ⟨subscriptions,-,hrun⟩ := lift_bind_eq_ok.mp hrun
      cases hrun
      exact .inl ⟨rfl,rfl⟩
    · rw [executeSubMsg_close _ _ hclose] at hrun
      have hio := subClosesSrvConnection_ok hp _ _ hrun
      obtain ⟨srv'',hclosed,-,-,hentries⟩ := subClosesSrvConnection_spec h.sound h.coherent hp (hsock ▸ hwatched) hio
      cases hclosed.symm.trans hrun
      exact .inr ⟨rfl,hentries⟩
    · rw [executeSubMsg_other _ _ hun hsub hclose] at hrun
      cases hrun
      exact .inl ⟨rfl,rfl⟩

end Entries

section Rounds
variable {u w : Int32} {order : ByteOrder} {read : Int32 → Incoming}

/-- The loop over the entries is the sequence of handler calls for the ready ones, also when one halts. -/
theorem pollPass_eq_steps {todo kept : List Pollfd} {fuel : ℕ} {t : List Effect} {srv : Srv} (h : Inv u w t srv)
    (hentries : srv.entries = kept ++ todo) (hfuel : todo.length ≤ fuel)
    (hallows : (machine order u w).Allows (Admissible (baseFds u w)) t srv (readEvents read todo)) :
    (pollPass order read fuel srv (kept.length+3)).map Prod.snd =
      (machine order u w).steps srv (readEvents read todo) := by
  induction todo generalizing kept fuel t srv with
  | nil =>
    have hlen := congrArg List.length hentries
    have hge := h.sound.nfds_ge
    have hle := h.sound.nfds_le
    have hpfds := h.sound.pfds_length
    simp only [Srv.entries,List.length_drop,List.length_take,List.append_nil] at hlen
    have hend : ¬ kept.length+3 < srv.nfds := by omega
    cases fuel with
    | zero =>
      rw [pollPass,if_neg hend]
      rfl
    | succ fuel =>
      rw [pollPass,if_neg hend]
      rfl
  | cons pfd todo ih =>
    obtain ⟨fuel,rfl⟩ : ∃ k, fuel = k+1 := ⟨fuel-1,by simp at hfuel; omega⟩
    have hi : srv.entries[kept.length]? = some pfd := by simp [hentries]
    obtain ⟨hlt,hpfd⟩ := pfds_of_entries hi
    have hfuel' : todo.length ≤ fuel := by simpa using hfuel
    -- what is left to do at the next index
    have hround : (pollPass order read (fuel+1) srv (kept.length+3)).map Prod.snd =
        pollEntry order read srv (kept.length+3) >>= fun r =>
          (pollPass order read fuel r.2.1 (r.2.2+1)).map Prod.snd := by
      rw [pollPass,if_pos hlt,map_bind]
      refine bind_congr fun _ r _ => ?_
      rw [map_bind,map_eq_bind]
      rfl
    rw [hround]
    cases hready : pfd.ready with
    | false =>
      have hskip : readEvents read (pfd :: todo) = readEvents read todo := by simp [readEvents,hready]
      have hnext := @ih (kept ++ [pfd]) fuel t srv h (by simpa using hentries) hfuel' (hskip ▸ hallows)
      rw [pollEntry_idle hpfd hready,hskip,← hnext,List.length_append]
      simp
    | true =>
      have hcall : readEvents read (pfd :: todo) = .message pfd.fd (read pfd.fd) :: readEvents read todo := by
        simp [readEvents,hready]
      rw [hcall] at hallows ⊢
      have hwatched : srv.watched[kept.length]? = some pfd.fd := by
        rw [Srv.watched_eq,List.getElem?_map,hi,Option.map_some]
      have hentry : pollEntry order read srv (kept.length+3) =
          handleSubMsg order srv (kept.length+3) (read pfd.fd) >>= fun r => pure ([pfd],r.1,r.2) := by
        simp only [pollEntry,hpfd,defined_some,lift_ok_bind,hready,if_true]
      have hstep : step order srv (.message pfd.fd (read pfd.fd)) =
          handleSubMsg order srv (kept.length+3) (read pfd.fd) >>= fun r => pure r.1 := by
        simp only [step,h.pfdIdx_eq hwatched]
      rw [hentry,steps_cons,Traced.bind_assoc]
      change _ = step order srv _ >>= _
      rw [hstep,Traced.bind_assoc]
      refine bind_congr fun o r hrun => ?_
      obtain ⟨srv',idx⟩ := r
      have hok : step order srv (.message pfd.fd (read pfd.fd)) = ⟨o,.ok srv'⟩ := by rw [hstep,hrun]; simp
      have h' := h.step hallows.1 hok
      rw [pure_bind,pure_bind]
      rcases handleSubMsg_moves h hi hrun with ⟨rfl,hsame⟩ | ⟨rfl,herase⟩
      · have hnext := @ih (kept ++ [pfd]) fuel _ srv' h' (by rw [hsame,hentries]; simp) hfuel' (hallows.2 o srv' hok)
        rw [← hnext,List.length_append]
        rfl
      · have hleft : srv'.entries = kept ++ todo := by
          rw [herase,hentries,List.eraseIdx_append_of_length_le (le_refl _),Nat.sub_self]
          rfl
        exact @ih kept fuel _ srv' h' hleft hfuel' (hallows.2 o srv' hok)

/-- A handler that is called for an entry, as an event of the server. -/
lemma ifReady_eq {srv : Srv} {i : ℕ} {pfd : Pollfd} (hpfd : srv.pfds[i]? = some pfd) {b : Bool}
    (hready : pfd.ready = b)
    {e : Event} {handler : Srv → Action Srv} (hhandler : handler srv = step order srv e) :
    ifReady srv i handler = (machine order u w).steps srv (if b then [e] else []) := by
  rw [ifReady,hpfd,defined_some,lift_ok_bind,hready,hhandler]
  cases b with
  | false => rfl
  | true => exact (Traced.bind_pure _).symm

/-- A round is the sequence of its handler calls, also when one of them halts the server. -/
theorem mainRound_eq_steps {t : List Effect} {srv : Srv} (h : Inv u w t srv) (wake : Wakeup)
    (hallows : (machine order u w).Allows (Admissible (baseFds u w)) t (srv.poll wake.revents) (wake.events srv)) :
    mainRound order srv wake = (machine order u w).steps (srv.poll wake.revents) (wake.events srv) := by
  have h₀ : Inv u w t (srv.poll wake.revents) := h.polled (poll_fds srv wake.revents)
  obtain ⟨stdin,hstdin,hready₀⟩ := poll_ready h.sound wake (show 0 < 3 by omega)
  obtain ⟨udp,hudp,hready₁⟩ := poll_ready h.sound wake (show 1 < 3 by omega)
  obtain ⟨tcp,htcp,hready₂⟩ := poll_ready h.sound wake (show 2 < 3 by omega)
  unfold Wakeup.events at hallows ⊢
  unfold mainRound
  generalize srv.poll wake.revents = s at *
  rw [steps_concat,steps_concat,steps_concat,Traced.bind_assoc,Traced.bind_assoc,
    ifReady_eq hstdin hready₀ (e := .command wake.io wake.line) rfl]
  -- a line that is typed leaves the server as it is
  refine Traced.bind_congr fun o₁ s₁ hrun₁ => ?_
  have hsame₁ : s₁ = s := by
    cases hb : wake.finds 0 with
    | false =>
      rw [hb] at hrun₁
      cases hrun₁
      rfl
    | true =>
      rw [hb] at hrun₁
      exact (handleStdinMsg_ok ((Traced.bind_pure _).symm.trans hrun₁)).1
  subst hsame₁
  rw [ifReady_eq hudp hready₁ (e := .datagram wake.dgram) rfl]
  -- a datagram too
  refine Traced.bind_congr fun o₂ s₂ hrun₂ => ?_
  have hsame₂ : s₂ = s₁ := by
    cases hb : wake.finds 1 with
    | false =>
      rw [hb] at hrun₂
      cases hrun₂
      rfl
    | true =>
      rw [hb] at hrun₂
      obtain ⟨_,_,_,-,hpure,-⟩ := bind_eq_ok.mp ((Traced.bind_pure _).symm.trans hrun₂)
      cases hpure
      rfl
  subst hsame₂
  rw [ifReady_eq htcp hready₂ (e := .connection wake.conn) rfl]
  -- a new connection has an entry in which nothing was found
  refine Traced.bind_congr fun o₃ s₃ hrun₃ => ?_
  have hcalls := steps_append (steps_append hrun₁ hrun₂) hrun₃
  have h₃ : Inv u w (t ++ (o₁ ++ o₂ ++ o₃)) s₃ := hallows.first.invariant (I := Inv u w)
    (fun _ _ _ _ _ h ha hstep => h.step ha hstep) h₀ hcalls
  have hallows₃ := hallows.rest hcalls
  have hentries : readEvents wake.read s₃.entries = readEvents wake.read s₂.entries := by
    cases hb : wake.finds 2 with
    | false =>
      rw [hb] at hrun₃
      cases hrun₃
      rfl
    | true =>
      rw [hb] at hrun₃
      rcases handleListenTcpMsg_entries h₀.sound ((Traced.bind_pure _).symm.trans hrun₃) with hsame | hnew
      · rw [hsame]
      · have hnothing : readEvents wake.read [⟨wake.conn.fd,pollin,0⟩] = [] := by simp [readEvents,Pollfd.ready]
        rw [hnew,readEvents_append,hnothing,List.append_nil]
  rw [← hentries] at hallows₃ ⊢
  have hlen : s₃.entries.length ≤ s₃.nfds := by
    simp only [Srv.entries,List.length_drop,List.length_take]
    omega
  have hpass := @pollPass_eq_steps u w order wake.read s₃.entries [] s₃.nfds _ s₃ h₃ rfl hlen hallows₃
  rw [← hpass,map_eq_bind]
  rfl

end Rounds

section Loop
variable {u w : Int32} {order : ByteOrder} {admits : List Effect → Event → Prop}

/-- What the handlers of a round find in an environment that `admits` describes. -/
def Finds (order : ByteOrder) (u w : Int32) (admits : List Effect → Event → Prop) (t : List Effect) (srv : Srv)
    (wake : Wakeup) : Prop :=
  (machine order u w).Allows admits t (srv.poll wake.revents) (wake.events srv)

lemma Allows.unpolled {t : List Effect} {srv : Srv} {es : List Event}
    (h : (machine order u w).Allows admits t srv es) :
    (machine order u w).Allows admits t srv.unpolled es := by
  induction es generalizing t srv with
  | nil => trivial
  | cons e es ih =>
    refine ⟨h.1,fun out s' hstep => ?_⟩
    change step order srv.unpolled e = _ at hstep
    rw [step_unpolled] at hstep
    cases hrun : step order srv e with
    | mk out' result =>
      rw [hrun] at hstep
      cases result with
      | error e' => cases hstep
      | ok srv' =>
        cases hstep
        exact ih (h.2 _ _ hrun)

lemma unpolled_init (u w : Int32) : (initSrv u w).unpolled = initSrv u w := by
  have hfresh : (freshPfds 253).map Pollfd.unpolled = freshPfds 253 := List.map_replicate
  simp only [Srv.unpolled,initSrv,initPollFds,List.map_append,hfresh]
  rfl

section Round
variable (hadmits : ∀ t e, admits t e → Admissible (baseFds u w) t e) {t : List Effect} {srv : Srv} {wake : Wakeup}
  (h : Inv u w t srv) (hfinds : Finds order u w admits t srv wake)
include hadmits h hfinds

/-- Apart from what `poll` wrote, a round does to the server what its handler calls do. -/
lemma mainRound_unpolled : (mainRound order srv wake).map Srv.unpolled =
    (machine order u w).steps srv.unpolled (wake.events srv) := by
  rw [mainRound_eq_steps h wake (hfinds.mono hadmits),← steps_unpolled,poll_unpolled]

lemma mainRound_run {es : List Event} (run : Run (machine order u w) admits es t srv.unpolled) {out : List Effect}
    {srv' : Srv} (hround : mainRound order srv wake = ⟨out,.ok srv'⟩) : Inv u w (t ++ out) srv' ∧
      Run (machine order u w) admits (es ++ wake.events srv) (t ++ out) srv'.unpolled := by
  have hsteps := mainRound_unpolled hadmits h hfinds
  have hallows := Allows.unpolled hfinds
  rw [poll_unpolled] at hallows
  rw [hround,map_mk_ok] at hsteps
  refine ⟨?_,run.allows_steps hallows hsteps.symm⟩
  rw [mainRound_eq_steps h wake (hfinds.mono hadmits)] at hround
  exact hfinds.invariant (I := Inv u w) (fun _ _ _ _ _ h ha hstep => h.step (hadmits _ _ ha) hstep)
    (h.polled (poll_fds srv wake.revents)) hround

end Round

lemma mainLoop_inv (hadmits : ∀ t e, admits t e → Admissible (baseFds u w) t e) {wakes : List Wakeup}
    {t : List Effect} {srv : Srv} (run : GuardedRun (mainLoop order u w) (Finds order u w admits) wakes t srv) :
    Inv u w t srv ∧ ∃ es, Run (machine order u w) admits es t srv.unpolled := by
  induction run with
  | init =>
    refine ⟨inv_init,[],?_⟩
    change Run _ _ [] [] (initSrv u w).unpolled
    rw [unpolled_init]
    exact .init
  | step _ hfinds hround ih =>
    obtain ⟨h,es,run⟩ := ih
    obtain ⟨h',run'⟩ := mainRound_run hadmits h hfinds run hround
    exact ⟨h',_,run'⟩

end Loop

section Orderly
variable {u w : Int32} {order : ByteOrder}

lemma allows_progress {es es' : List Event} {t : List Effect} {srv : Srv}
    (run : Run (machine order u w) (Orderly order (baseFds u w)) es t srv)
    (h : (machine order u w).Allows (Orderly order (baseFds u w)) t srv es') :
    ∃ out srv', (machine order u w).steps srv es' = ⟨out,.ok srv'⟩ := by
  induction es' generalizing es t srv with
  | nil => exact ⟨[],srv,rfl⟩
  | cons e es' ih =>
    obtain ⟨o₁,srv₁,hstep,run₁⟩ := orderly_progress run h.1
    obtain ⟨o₂,srv₂,hrest⟩ := ih run₁ (h.2 o₁ srv₁ hstep)
    refine ⟨o₁ ++ o₂,srv₂,?_⟩
    change step order srv e >>= _ = _
    rw [hstep,mk_ok_bind,hrest]

lemma mainRound_progress {wakes : List Wakeup} {t : List Effect} {srv : Srv}
    (run : GuardedRun (mainLoop order u w) (Finds order u w (Orderly order (baseFds u w))) wakes t srv)
    {wake : Wakeup}
    (hfinds : Finds order u w (Orderly order (baseFds u w)) t srv wake) :
    ∃ out srv', mainRound order srv wake = ⟨out,.ok srv'⟩ ∧ GuardedRun (mainLoop order u w)
      (Finds order u w (Orderly order (baseFds u w))) (wakes ++ [wake]) (t ++ out) srv' := by
  have hadmits : ∀ t e, Orderly order (baseFds u w) t e → Admissible (baseFds u w) t e := fun _ _ ho => ho.admissible
  obtain ⟨h,es,run'⟩ := mainLoop_inv hadmits run
  have hallows := Allows.unpolled hfinds
  rw [poll_unpolled] at hallows
  obtain ⟨out,srv',hsteps⟩ := allows_progress run' hallows
  have hround := mainRound_unpolled hadmits h hfinds
  rw [hsteps] at hround
  cases hmain : mainRound order srv wake with
  | mk out' result =>
    rw [hmain] at hround
    cases result with
    | error e => cases hround
    | ok srv'' => exact ⟨out',srv'',rfl,run.step hfinds hmain⟩

end Orderly

section Example

/-- A round that finds client `c` connecting, and one that finds a message of it. -/
def connecting : Wakeup :=
  ⟨fun i => if i = 2 then pollin else 0,.ok,none,wholeDatagram [],wholeConnection 5 (chars "c"),
    fun _ => ⟨Buffer.zeroed _,none,.ok⟩⟩

def subscribing : Wakeup :=
  ⟨fun i => if i = 3 then pollin else 0,.ok,none,wholeDatagram [],wholeConnection 5 (chars "c"),
    fun _ => wholeMessage .little ⟨subscribeSubMsg,topicField (chars "a/+")⟩⟩

lemma connecting_finds : Finds .little 3 4 (Orderly .little (baseFds 3 4)) [] (initSrv 3 4) connecting := by
  have hentries : ((initSrv 3 4).poll connecting.revents).entries = [] := by
    rw [← List.map_eq_nil_iff (f := Pollfd.fd),← Srv.watched_eq,poll_watched,watched_init]
  have hevents : connecting.events (initSrv 3 4) = [.connection (wholeConnection 5 (chars "c"))] := by
    have hfinds : connecting.finds 0 = false ∧ connecting.finds 1 = false ∧ connecting.finds 2 = true := by decide
    rw [Wakeup.events,hentries,hfinds.1,hfinds.2.1,hfinds.2.2]
    rfl
  rw [Finds,hevents]
  exact ⟨orderly_connection,fun _ _ _ => trivial⟩

lemma subscribing_events (srv : Srv) :
    subscribing.events srv = readEvents subscribing.read (srv.poll subscribing.revents).entries := by
  have hfinds : ∀ i < 3, subscribing.finds i = false := by decide
  rw [Wakeup.events,hfinds 0 (by decide),hfinds 1 (by decide),hfinds 2 (by decide)]
  rfl

lemma subscribing_finds (t : List Effect) (srv : Srv) :
    Finds .little 3 4 (Orderly .little (baseFds 3 4)) t srv subscribing := by
  refine Machine.Allows.of_forall fun e he t => ?_
  rw [subscribing_events] at he
  obtain ⟨pfd,-,rfl⟩ := List.mem_map.mp he
  exact ⟨rfl,_,rfl,fun _ => ⟨by decide +kernel,by decide +kernel⟩⟩

lemma exists_main_run : ∃ t srv, GuardedRun (mainLoop .little 3 4)
    (Finds .little 3 4 (Orderly .little (baseFds 3 4)))
    [connecting,subscribing] t srv ∧ (srv.poll subscribing.revents).entries = [⟨5,pollin,pollin⟩] := by
  obtain ⟨o₁,srv₁,h₁,run₁⟩ := mainRound_progress .init connecting_finds
  obtain ⟨o₂,srv₂,h₂,run₂⟩ := mainRound_progress run₁ (subscribing_finds _ srv₁)
  have hcheck : ((mainRound .little (mainLoop .little 3 4).init connecting >>= fun srv =>
      mainRound .little srv subscribing).result.toOption.any
      fun srv => (srv.poll subscribing.revents).entries = [⟨5,pollin,pollin⟩]) = true := by decide +kernel
  rw [h₁,mk_ok_bind,h₂] at hcheck
  exact ⟨_,srv₂,run₂,of_decide_eq_true hcheck⟩

end Example

section Guarantees
variable {u w : Int32} {order : ByteOrder}

/-- Refinement: whatever the kernel may do, the loop of `main` is a run of the server on what its handlers read,
round by round and call by call, also in a round that a handler halts. -/
theorem mainLoop_refines {admits : List Effect → Event → Prop}
    (hadmits : ∀ t e, admits t e → Admissible (baseFds u w) t e) {wakes : List Wakeup} {t : List Effect} {srv : Srv}
    (run : GuardedRun (mainLoop order u w) (Finds order u w admits) wakes t srv) :
    ∃ es, Run (machine order u w) admits es t srv.unpolled ∧ ∀ wake, Finds order u w admits t srv wake →
      (mainRound order srv wake).map Srv.unpolled = (machine order u w).steps srv.unpolled (wake.events srv) ∧
      ∀ out srv', mainRound order srv wake = ⟨out,.ok srv'⟩ →
        Run (machine order u w) admits (es ++ wake.events srv) (t ++ out) srv'.unpolled := by
  obtain ⟨h,es,run⟩ := mainLoop_inv hadmits run
  exact ⟨es,run,fun wake hfinds => ⟨mainRound_unpolled hadmits h hfinds,
    fun out srv' hround => (mainRound_run hadmits h hfinds run hround).2⟩⟩

/-- The next round, which finds a message on descriptor 5 again, is the one call for it. -/
theorem mainLoop_refines_example : ∃ t srv, GuardedRun (mainLoop .little 3 4)
      (Finds .little 3 4 (Orderly .little (baseFds 3 4))) [connecting,subscribing] t srv ∧
    (mainRound .little srv subscribing).map Srv.unpolled =
      (machine .little 3 4).steps srv.unpolled [.message 5 (subscription "a/+")] := by
  obtain ⟨t,srv,run,hentries⟩ := exists_main_run
  obtain ⟨es,-,hround⟩ := mainLoop_refines (fun _ _ ho => ho.admissible) run
  have hevents : subscribing.events srv = [.message 5 (subscription "a/+")] := by
    rw [subscribing_events,hentries]
    rfl
  refine ⟨t,srv,run,?_⟩
  rw [(hround subscribing (subscribing_finds t srv)).1,hevents]

/-- Safety of the loop: in an orderly environment, which types no line, no round halts, however many entries are
ready in it, and the four structures agree at every call of `poll`. -/
theorem mainLoop_consistent {wakes : List Wakeup} {t : List Effect} {srv : Srv}
    (run : GuardedRun (mainLoop order u w) (Finds order u w (Orderly order (baseFds u w))) wakes t srv) :
    srv.Consistent ∧ ∀ wake, Finds order u w (Orderly order (baseFds u w)) t srv wake →
      ∃ out srv', mainRound order srv wake = ⟨out,.ok srv'⟩ := by
  refine ⟨(mainLoop_inv (fun _ _ ho => ho.admissible) run).1.consistent,fun wake hfinds => ?_⟩
  obtain ⟨out,srv',hround,-⟩ := mainRound_progress run hfinds
  exact ⟨out,srv',hround⟩

theorem mainLoop_consistent_example : ∃ t srv, GuardedRun (mainLoop .little 3 4)
      (Finds .little 3 4 (Orderly .little (baseFds 3 4))) [connecting,subscribing] t srv ∧ srv.Consistent ∧
    ∃ out srv', mainRound .little srv subscribing = ⟨out,.ok srv'⟩ := by
  obtain ⟨t,srv,run,-⟩ := exists_main_run
  obtain ⟨hconsistent,hprogress⟩ := mainLoop_consistent run
  exact ⟨t,srv,run,hconsistent,hprogress subscribing (subscribing_finds t srv)⟩

end Guarantees

end ClientServerApp.Server
