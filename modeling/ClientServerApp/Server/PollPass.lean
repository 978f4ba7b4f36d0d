import ClientServerApp.Server.Sessions

/-! One pass of `main` over the poll entries of the subscribers. The body of the loop may remove the entry it is at
and step its index back. -/
namespace ClientServerApp.Server
open Traced Runs

/-- `poll` found something to read. -/
def Pollfd.ready (pfd : Pollfd) : Bool := pfd.revents &&& pollin ≠ 0

/-- The body of the loop, with the entry that it calls `handle_sub_msg` for and the index it leaves.
`read` gives what the `recv` from a descriptor returns. -/
def pollEntry (order : ByteOrder) (read : Int32 → Incoming) (srv : Srv) (i : ℕ) :
    Action (List Pollfd × Srv × ℕ) := do
  let pfd ← lift (defined srv.pfds[i]?)
  if pfd.ready then do
    let (srv,i) ← handleSubMsg order srv i (read pfd.fd)
    pure ([pfd],srv,i)
  else pure ([],srv,i)

/-- The loop from index `i` on; its first result lists the entries that `handle_sub_msg` was called for. In the
source the index is an `int`, which is never negative here, and `nfds`, which counts open descriptors, an unsigned
number. -/
def pollPass (order : ByteOrder) (read : Int32 → Incoming) : ℕ → Srv → ℕ → Action (List Pollfd × Srv)
  | 0,srv,i => if i < srv.nfds then halt .outOfFuel else pure ([],srv)
  | fuel+1,srv,i =>
    if i < srv.nfds then do
      let (calls,srv,i) ← pollEntry order read srv i
      let (later,srv) ← pollPass order read fuel srv (i+1)
      pure (calls ++ later,srv)
    else pure ([],srv)

/-- The one `recv` returns a whole message; a topic that is read is a word over the alphabet. -/
structure Reads (order : ByteOrder) (msg : Incoming) (sent : SubMsg) : Prop where
  received_eq : msg.received = some (sent.bytes order)
  io_ok : msg.io = .ok
  topic : sent.type = subscribeSubMsg ∨ sent.type = unsubscribeSubMsg →
    0 ∈ sent.topic.toList ∧ IsTopic (cString sent.topic.toList)

lemma Reads.orderly {order : ByteOrder} {msg : Incoming} {sent : SubMsg} (h : Reads order msg sent)
    (base : Finset Int32) (t : List Effect) (fd : Int32) : Orderly order base t (.message fd msg) :=
  ⟨h.io_ok,sent,h.received_eq,h.topic⟩

section Loop
variable {order : ByteOrder} {read : Int32 → Incoming} {srv srv₁ srv₂ : Srv} {i j : ℕ} {pfd : Pollfd}
  {out o₁ o₂ : List Effect}

lemma pollEntry_idle (hpfd : srv.pfds[i]? = some pfd) (hready : pfd.ready = false) :
    pollEntry order read srv i = ⟨[],.ok ([],srv,i)⟩ := by
  simp only [pollEntry,hpfd,defined_some,lift_ok_bind,hready]
  rfl

lemma pollEntry_ready (hpfd : srv.pfds[i]? = some pfd) (hready : pfd.ready = true)
    (hhandle : handleSubMsg order srv i (read pfd.fd) = ⟨out,.ok (srv₁,j)⟩) :
    pollEntry order read srv i = ⟨out,.ok ([pfd],srv₁,j)⟩ := by
  simp only [pollEntry,hpfd,defined_some,lift_ok_bind,hready,if_true,hhandle,mk_ok_bind,pure_out,pure_result,
    List.append_nil]

/-- One round of the loop and the rounds after it. -/
lemma pollPass_succ {fuel : ℕ} {calls later : List Pollfd} (hlt : i < srv.nfds)
    (hentry : pollEntry order read srv i = ⟨o₁,.ok (calls,srv₁,j)⟩)
    (hrest : pollPass order read fuel srv₁ (j+1) = ⟨o₂,.ok (later,srv₂)⟩) :
    pollPass order read (fuel+1) srv i = ⟨o₁ ++ o₂,.ok (calls ++ later,srv₂)⟩ := by
  simp only [pollPass,if_pos hlt,hentry,mk_ok_bind,hrest,pure_out,pure_result,List.append_nil]

end Loop

lemma watched_polled {srv : Srv} {pfds : List Pollfd} (hpfds : pfds.map Pollfd.fd = srv.pfds.map Pollfd.fd) :
    ({ srv with pfds := pfds } : Srv).watched = srv.watched := by
  rw [Srv.watched,Srv.watched,List.map_drop,List.map_take,hpfds,← List.map_take,← List.map_drop]

section Entry
variable {u w : Int32} {order : ByteOrder} {t : List Effect} {srv : Srv} (h : Inv u w t srv)
include h

/-- What `poll` writes into the entries is not looked at elsewhere. -/
lemma Inv.polled {pfds : List Pollfd} (hpfds : pfds.map Pollfd.fd = srv.pfds.map Pollfd.fd) :
    Inv u w t { srv with pfds := pfds } := by
  have hlen : pfds.length = srv.pfds.length := by simpa using congrArg List.length hpfds
  have hwatched := watched_polled hpfds
  have hreg : ({ srv with pfds := pfds } : Srv).registry = srv.registry := by
    simp only [Srv.registry,hwatched]
  refine ⟨?_,hreg ▸ h.coherent,hwatched ▸ h.fds⟩
  have hs := h.sound
  exact ⟨hs.udp_eq,hs.tcp_eq,hs.nfds_ge,hs.nfds_le,hlen.trans hs.pfds_length,hs.subs_eq,hs.byFd_valid,
    hs.byFd_compare,hs.byId_valid,hs.byId_compare⟩

lemma Inv.pfdIdx_eq {i : ℕ} {fd : Int32} (hi : srv.watched[i]? = some fd) : srv.pfdIdx fd = some (i+3) := by
  obtain ⟨hlt,hget⟩ := List.getElem?_eq_some_iff.mp hi
  have hidx : srv.watched.idxOf? fd = some i := by
    rw [List.idxOf?_eq_some_iff]
    refine ⟨hlt,hget,fun j hj heq => ?_⟩
    have hnodup : srv.watched.Nodup := h.coherent.nodup
    have hsame := hnodup.getElem_inj_iff.mp (heq.trans hget.symm)
    omega
  rw [Srv.pfdIdx,hidx]
  rfl

omit h in
/-- A message that closes the connection removes its entry and steps the index back; another one leaves both. -/
lemma Executed.entry {p : Ptr} {sub : Sub} {i idx : ℕ} {msg : SubMsg} {srv' : Srv}
    (hexecuted : Executed srv p sub i msg srv' idx) : idx = (if msg.type = closeSubMsg then i+2 else i+3) ∧
      srv'.entries = if msg.type = closeSubMsg then srv.entries.eraseIdx i else srv.entries := by
  cases hexecuted with
  | unsubscribed htype _ =>
    rw [htype]
    exact ⟨rfl,rfl⟩
  | subscribed htype _ =>
    rw [htype]
    exact ⟨rfl,rfl⟩
  | closed htype _ hentries =>
    rw [if_pos htype,if_pos htype]
    exact ⟨rfl,hentries⟩
  | ignored _ _ hclose =>
    rw [if_neg hclose,if_neg hclose]
    exact ⟨rfl,rfl⟩

/-- The call for an entry is the step of the server on that message. -/
theorem handleSubMsg_entry {i : ℕ} {pfd : Pollfd} (hi : srv.entries[i]? = some pfd) {msg : Incoming} {sent : SubMsg}
    (hmsg : Reads order msg sent) : ∃ out srv',
    handleSubMsg order srv (i+3) msg = ⟨out,.ok (srv',if sent.type = closeSubMsg then i+2 else i+3)⟩ ∧
      step order srv (.message pfd.fd msg) = ⟨out,.ok srv'⟩ ∧
      srv'.entries = if sent.type = closeSubMsg then srv.entries.eraseIdx i else srv.entries := by
  have hwatched : srv.watched[i]? = some pfd.fd := by rw [Srv.watched_eq,List.getElem?_map,hi,Option.map_some]
  obtain ⟨p,sub,hbyFd,hp,hsock,-⟩ := h.coherent.byFd_of_mem (List.mem_of_getElem? hwatched)
  obtain ⟨out,srv',idx,hrun,hexecuted⟩ := executeSubMsg_whole h hp (hsock ▸ hwatched) hmsg.io_ok hmsg.topic
  obtain ⟨rfl,hentries⟩ := hexecuted.entry
  have hhandle : handleSubMsg order srv (i+3) msg =
      ⟨out,.ok (srv',if sent.type = closeSubMsg then i+2 else i+3)⟩ := by
    rw [handleSubMsg_eq order hwatched hbyFd hp]
    simp only [hmsg.received_eq,subMsg_whole]
    exact hrun
  refine ⟨out,srv',hhandle,?_,hentries⟩
  simp only [step,h.pfdIdx_eq hwatched,hhandle,mk_ok_bind,pure_out,pure_result,List.append_nil]

end Entry

section Pass
variable {u w : Int32} {order : ByteOrder} {read : Int32 → Incoming} {sent : Int32 → SubMsg}

/-- The entry stays: it was not ready or its message does not close the connection. -/
def stays (sent : Int32 → SubMsg) (pfd : Pollfd) : Bool := ¬ (pfd.ready = true ∧ (sent pfd.fd).type = closeSubMsg)

/-- The messages of the ready entries, as events of the server. -/
def readEvents (read : Int32 → Incoming) (entries : List Pollfd) : List Event :=
  (entries.filter Pollfd.ready).map fun pfd => .message pfd.fd (read pfd.fd)

lemma readEvents_append (entries entries' : List Pollfd) :
    readEvents read (entries ++ entries') = readEvents read entries ++ readEvents read entries' := by
  rw [readEvents,List.filter_append,List.map_append]
  rfl

/-- One round at the first of the entries that are left. The next one is found at the same index when the entry is
removed, and one further when it stays. -/
theorem pollEntry_round {kept todo : List Pollfd} {pfd : Pollfd} {t : List Effect} {srv : Srv} (h : Inv u w t srv)
    (hentries : srv.entries = kept ++ pfd :: todo)
    (hread : pfd.ready = true → Reads order (read pfd.fd) (sent pfd.fd)) : ∃ out srv' j,
    pollEntry order read srv (kept.length+3) = ⟨out,.ok ([pfd].filter Pollfd.ready,srv',j)⟩ ∧
      (machine order u w).steps srv (readEvents read [pfd]) = ⟨out,.ok srv'⟩ ∧ Inv u w (t ++ out) srv' ∧
      srv'.entries = kept ++ [pfd].filter (stays sent) ++ todo ∧
      j+1 = (kept ++ [pfd].filter (stays sent)).length + 3 := by
  have hi : srv.entries[kept.length]? = some pfd := by simp [hentries]
  obtain ⟨-,hpfd⟩ := pfds_of_entries hi
  cases hready : pfd.ready with
  | false =>
    have hstays : stays sent pfd = true := by simp [stays,hready]
    refine ⟨[],srv,kept.length+3,?_,?_,?_,?_,?_⟩
    · rw [pollEntry_idle hpfd hready]
      simp [hready]
    · simp [readEvents,hready,pure_eq]
    · rwa [List.append_nil]
    · simp [hentries,hstays]
    · simp [hstays]
  | true =>
    have hmsg := hread hready
    obtain ⟨out,srv',hhandle,hstep,hentries'⟩ := handleSubMsg_entry h hi hmsg
    have horderly := hmsg.orderly (baseFds u w) t pfd.fd
    refine ⟨out,srv',if (sent pfd.fd).type = closeSubMsg then kept.length+2 else kept.length+3,?_,?_,
      h.step horderly.admissible hstep,?_,?_⟩
    · rw [pollEntry_ready hpfd hready hhandle,List.filter_cons_of_pos hready]
      rfl
    · rw [readEvents,List.filter_cons_of_pos hready]
      change step order srv _ >>= _ = _
      rw [hstep]
      simp
    · rw [hentries',hentries]
      by_cases hclose : (sent pfd.fd).type = closeSubMsg
      · rw [if_pos hclose,List.eraseIdx_append_of_length_le (le_refl _),Nat.sub_self]
        simp [stays,hready,hclose]
      · simp [stays,hready,hclose]
    · by_cases hclose : (sent pfd.fd).type = closeSubMsg
      · simp [stays,hready,hclose]
      · simp [stays,hready,hclose]

/-- The rest of the pass, from the entries `todo` on: they are behind those that stay of the entries before. -/
theorem pollPass_from {todo kept : List Pollfd} {fuel : ℕ} {t : List Effect} {srv : Srv} (h : Inv u w t srv)
    (hentries : srv.entries = kept ++ todo) (hfuel : todo.length ≤ fuel)
    (hread : ∀ pfd ∈ todo, pfd.ready = true → Reads order (read pfd.fd) (sent pfd.fd)) :
    ∃ out srv', pollPass order read fuel srv (kept.length+3) = ⟨out,.ok (todo.filter Pollfd.ready,srv')⟩ ∧
      (machine order u w).steps srv (readEvents read todo) = ⟨out,.ok srv'⟩ ∧
      srv'.entries = kept ++ todo.filter (stays sent) := by
  induction todo generalizing kept fuel t srv with
  | nil =>
    have hlen := congrArg List.length hentries
    have hge := h.sound.nfds_ge
    have hle := h.sound.nfds_le
    have hpfds := h.sound.pfds_length
    simp only [Srv.entries,List.length_drop,List.length_take,List.append_nil] at hlen
    have hend : ¬ kept.length+3 < srv.nfds := by omega
    refine ⟨[],srv,?_,rfl,hentries⟩
    cases fuel with
    | zero => exact if_neg hend
    | succ fuel => exact if_neg hend
  | cons pfd todo ih =>
    obtain ⟨fuel,rfl⟩ : ∃ k, fuel = k+1 := ⟨fuel-1,by simp at hfuel; omega⟩
    obtain ⟨hlt,-⟩ := pfds_of_entries (show srv.entries[kept.length]? = some pfd by simp [hentries])
    obtain ⟨o₁,srv₁,j,hentry,hstep,h₁,hentries₁,hj⟩ :=
      pollEntry_round h hentries (hread pfd List.mem_cons_self)
    obtain ⟨o₂,srv₂,hpass,hsteps,hleft⟩ := @ih _ fuel _ srv₁ h₁ hentries₁ (by simpa using hfuel)
      fun q hq => hread q (List.mem_cons_of_mem _ hq)
    rw [← hj] at hpass
    refine ⟨o₁ ++ o₂,srv₂,?_,?_,?_⟩
    · rw [← List.singleton_append,List.filter_append]
      exact pollPass_succ hlt hentry hpass
    · rw [← List.singleton_append,readEvents_append]
      exact steps_append hstep hsteps
    · rw [hleft,List.append_assoc,← List.filter_append,List.singleton_append]

end Pass

/-- The pass ends, with one call for each entry that was ready, in the order of the array: it is a run of the server
on their messages. The entries whose message closes the connection are removed, and the others stay as they
were. What `poll` wrote is any change of the array that keeps the descriptors. -/
theorem pollPass_handles {u w : Int32} {order : ByteOrder} {es : List Event} {t : List Effect} {srv₀ srv : Srv}
    (run : Run (machine order u w) (Admissible (baseFds u w)) es t srv₀) {pfds : List Pollfd}
    (hpfds : pfds.map Pollfd.fd = srv₀.pfds.map Pollfd.fd) (hsrv : srv = { srv₀ with pfds := pfds })
    {read : Int32 → Incoming} {sent : Int32 → SubMsg}
    (hread : ∀ pfd ∈ srv.entries, pfd.ready = true → Reads order (read pfd.fd) (sent pfd.fd)) {fuel : ℕ}
    (hfuel : srv.nfds - 3 ≤ fuel) :
    ∃ out srv', pollPass order read fuel srv 3 = ⟨out,.ok (srv.entries.filter Pollfd.ready,srv')⟩ ∧
      (machine order u w).steps srv (readEvents read srv.entries) = ⟨out,.ok srv'⟩ ∧
      srv'.entries = srv.entries.filter fun pfd => ¬ (pfd.ready = true ∧ (sent pfd.fd).type = closeSubMsg) := by
  have h : Inv u w t srv := hsrv ▸ (reachable_inv run).polled hpfds
  have hlen : srv.entries.length ≤ fuel := by
    simp only [Srv.entries,List.length_drop,List.length_take]
    omega
  exact @pollPass_from u w order read sent srv.entries [] fuel t srv h rfl hlen hread

/-- What the three clients have sent: client `d` ends its connection. -/
def readThree (fd : Int32) : Incoming :=
  if fd = 6 then wholeMessage .little ⟨closeSubMsg,Buffer.zeroed _⟩ else subscription "b"

/-- The pass makes three calls and keeps the entries of the other two clients. -/
theorem pollPass_handles_closing : ∃ t srv,
    Run (machine .little 3 4) (Admissible (baseFds 3 4)) severalEvents t srv ∧
    ∃ polled : Srv, polled = { srv with pfds := srv.pfds.map fun pfd => { pfd with revents := pollin } } ∧
      ∃ calls out srv', pollPass .little readThree polled.nfds polled 3 = ⟨out,.ok (calls,srv')⟩ ∧
        calls.map Pollfd.fd = [5,6,7] ∧ srv'.entries.map Pollfd.fd = [5,7] := by
  obtain ⟨t,srv,run,hthree⟩ := @exists_orderly_run severalEvents
    (fun r => r.2.entries = [⟨5,pollin,0⟩,⟨6,pollin,0⟩,⟨7,pollin,0⟩]) (by decide +kernel)
  have run' := run.mono fun _ _ _ ho => ho.admissible
  have hfds : (srv.pfds.map fun pfd => { pfd with revents := pollin }).map Pollfd.fd = srv.pfds.map Pollfd.fd := by
    rw [List.map_map]
    rfl
  let sent : Int32 → SubMsg := fun fd => if fd = 6 then ⟨closeSubMsg,Buffer.zeroed _⟩ else
    ⟨subscribeSubMsg,topicField (chars "b")⟩
  have hread : ∀ fd, Reads .little (readThree fd) (sent fd) := by
    intro fd
    by_cases hfd : fd = 6
    · simp only [readThree,sent,if_pos hfd]
      exact ⟨rfl,rfl,fun htype => absurd htype (by decide)⟩
    · simp only [readThree,sent,if_neg hfd]
      exact ⟨rfl,rfl,fun _ => ⟨by decide +kernel,by decide +kernel⟩⟩
  obtain ⟨out,srv',hpass,-,hleft⟩ := @pollPass_handles 3 4 .little _ t srv _ run' _ hfds rfl readThree sent
    (fun pfd _ _ => hread pfd.fd) _ (Nat.sub_le _ 3)
  have hentries : Srv.entries { srv with pfds := srv.pfds.map fun pfd => { pfd with revents := pollin } } =
      [⟨5,pollin,pollin⟩,⟨6,pollin,pollin⟩,⟨7,pollin,pollin⟩] := by
    rw [Srv.entries,← List.map_take,← List.map_drop]
    change srv.entries.map _ = _
    rw [of_decide_eq_true hthree]
    rfl
  refine ⟨t,srv,run',_,rfl,_,out,srv',hpass,?_,?_⟩
  · rw [hentries]
    decide
  · rw [hleft,hentries]
    decide

end ClientServerApp.Server
