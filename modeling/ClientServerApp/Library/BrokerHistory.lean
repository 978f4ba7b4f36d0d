import ClientServerApp.Library.BrokerState

/-! What a program of the service sends and is sent over a whole run, and that the queues run empty when nothing
new comes. -/
namespace Broker
variable {Name Topic Msg : Type}

/-- The topic is subscribed to after the requests. -/
def Request.Leaves [DecidableEq Topic] (rs : List (Request Topic)) (topic : Topic) : Prop :=
  LastWrite.valueAfter (· == ·) (rs.filterMap call) topic = some ()

lemma Request.not_leaves_nil [DecidableEq Topic] {topic : Topic} : ¬ Leaves [] topic := by simp [Leaves]

lemma Request.leaves_subscribe [DecidableEq Topic] {key topic : Topic} :
    Leaves [.subscribe key] topic ↔ topic = key := by
  have hcalls : [subscribe key].filterMap call = [] ++ [LastWrite.Call.put key ()] := rfl
  rw [Leaves,hcalls,LastWrite.valueAfter_concat,eq_comm (a := topic)]
  by_cases h : key = topic <;> simp [h,LastWrite.Call.value,LastWrite.Call.key]

namespace State
variable [DecidableEq Name] [DecidableEq Topic] (closing : Msg) (ends : Msg → Bool) (b : State Name Topic Msg)

section Cases
variable {b} {ends}

/-- The service reads a request or does nothing. -/
lemma next_read (k : ℕ) : b.next closing ends (.read k) = b ∨ ∃ p r rest, b.peers[k]? = some p ∧ p.connected ∧
    p.upstream.pending = r :: rest ∧ b.stopped = false ∧ b.next closing ends (.read k) = b.execute k p r := by
  simp only [next]
  split_ifs with hstopped
  · exact .inl rfl
  · split
    · exact .inl rfl
    · rename_i p hp
      split_ifs with hconnected
      · split
        · exact .inl rfl
        · rename_i r rest hpending
          exact .inr ⟨p,r,rest,hp,hconnected,hpending,by simpa using hstopped,rfl⟩
      · exact .inl rfl

/-- The service answers the next program in line or does nothing. -/
lemma next_accept : b.next closing ends .accept = b ∧ (b.stopped ∨ b.peers[b.accepted]? = none) ∨
    ∃ p, b.peers[b.accepted]? = some p ∧ b.stopped = false ∧ b.next closing ends .accept = b.accept closing p := by
  simp only [next]
  split_ifs with hstopped
  · exact .inl ⟨rfl,.inl hstopped⟩
  · split
    · exact .inl ⟨rfl,.inr ‹_›⟩
    · exact .inr ⟨_,‹_›,by simpa using hstopped,rfl⟩

end Cases

section History

/-- What the service sends to program `k` on an event. -/
def told (k : ℕ) (e : Event Name Topic Msg) : List Msg := match b.peers[k]? with
  | none => []
  | some p => match e with
    | .accept =>
      if b.stopped = false ∧ b.accepted = k ∧ ∃ q ∈ b.peers, q.connected ∧ q.name = p.name then [closing] else []
    | .publish msg accepts =>
      if b.stopped = false ∧ p.connected ∧ ∃ topic ∈ b.topics p.name, accepts topic then [msg] else []
    | .stop => if b.stopped = false ∧ p.connected then [closing] else []
    | _ => []

/-- What program `k` sends on an event. -/
def asked (k : ℕ) (e : Event Name Topic Msg) : List (Request Topic) := match b.peers[k]?,e with
  | some p,.request j r => if j = k ∧ p.running then [r] else []
  | _,_ => []

/-- All that the service sends to program `k` over a sequence of events. -/
def toldBy (k : ℕ) : State Name Topic Msg → List (Event Name Topic Msg) → List Msg
  | _,[] => []
  | b,e :: es => b.told closing k e ++ toldBy k (b.next closing ends e) es

/-- All that program `k` sends over a sequence of events. -/
def askedBy (k : ℕ) : State Name Topic Msg → List (Event Name Topic Msg) → List (Request Topic)
  | _,[] => []
  | b,e :: es => b.asked k e ++ askedBy k (b.next closing ends e) es

/-- The streams of a program went on by what was told and asked. -/
structure Goes (k : ℕ) (e : Event Name Topic Msg) (p p' : Peer Name Topic Msg) : Prop where
  name_eq : p'.name = p.name
  told_eq : p'.downstream.sent = p.downstream.sent ++ b.told closing k e
  asked_eq : p'.upstream.sent = p.upstream.sent ++ b.asked k e

variable {closing ends b} {k : ℕ} {p : Peer Name Topic Msg}

omit [DecidableEq Topic] in
/-- A program is told what is published and the closing message, nothing else. -/
lemma mem_told {e : Event Name Topic Msg} {msg : Msg} (h : msg ∈ b.told closing k e) :
    msg = closing ∨ ∃ accepts, e = .publish msg accepts := by
  unfold told at h
  split at h
  · exact absurd h List.not_mem_nil
  · split at h
    · split_ifs at h
      · exact .inl (List.mem_singleton.mp h)
      · exact absurd h List.not_mem_nil
    · split_ifs at h
      · obtain rfl := List.mem_singleton.mp h
        exact .inr ⟨_,rfl⟩
      · exact absurd h List.not_mem_nil
    · split_ifs at h
      · exact .inl (List.mem_singleton.mp h)
      · exact absurd h List.not_mem_nil
    · exact absurd h List.not_mem_nil

omit [DecidableEq Topic] in
/-- An event on which neither side says anything. -/
lemma Goes.quiet {e : Event Name Topic Msg} {p' : Peer Name Topic Msg} (htold : b.told closing k e = [])
    (hasked : b.asked k e = []) (hname : p'.name = p.name) (hdown : p'.downstream.sent = p.downstream.sent)
    (hup : p'.upstream.sent = p.upstream.sent) : b.Goes closing k e p p' :=
  ⟨hname,by rw [htold,hdown,List.append_nil],by rw [hasked,hup,List.append_nil]⟩

omit [DecidableEq Name] [DecidableEq Topic] in
lemma getElem?_modify_of_some {l : List (Peer Name Topic Msg)} (hp : l[k]? = some p) (j : ℕ)
    (f : Peer Name Topic Msg → Peer Name Topic Msg) : (l.modify j f)[k]? = some (if j = k then f p else p) := by
  rw [List.getElem?_modify,hp]
  rfl

omit [DecidableEq Topic] in
/-- An answer of the service to the next program in line. -/
lemma accept_peers (q : Peer Name Topic Msg) (hp : b.peers[k]? = some p) : (b.accept closing q).peers[k]? = some
    (if b.accepted = k then if ∃ q' ∈ b.peers, q'.connected ∧ q'.name = q.name then p.tell closing
      else { p with connected := true } else p) := by
  simp only [accept]
  by_cases htaken : ∃ q' ∈ b.peers, q'.connected ∧ q'.name = q.name
  · simp only [if_pos htaken]
    exact getElem?_modify_of_some hp _ _
  · simp only [if_neg htaken]
    exact getElem?_modify_of_some hp _ _

/-- One event. -/
lemma next_goes (hp : b.peers[k]? = some p) (e : Event Name Topic Msg) :
    ∃ p', (b.next closing ends e).peers[k]? = some p' ∧ b.Goes closing k e p p' := by
  cases e with
  | start name =>
    refine ⟨p,?_,.quiet (by simp [told,hp]) (by simp [asked,hp]) rfl rfl rfl⟩
    exact (List.getElem?_append_left (List.getElem?_eq_some_iff.mp hp).1).trans hp
  | idle => exact ⟨p,hp,.quiet (by simp [told,hp]) (by simp [asked,hp]) rfl rfl rfl⟩
  | request j r =>
    refine ⟨_,getElem?_modify_of_some hp j _,?_⟩
    by_cases hj : j = k
    · rw [if_pos hj,Peer.request]
      by_cases hrun : p.running = true
      · rw [if_pos hrun]
        exact ⟨rfl,by simp [told,hp],by simp [asked,hp,hj,hrun]⟩
      · rw [if_neg hrun]
        exact .quiet (by simp [told,hp]) (by simp [asked,hp,hrun]) rfl rfl rfl
    · rw [if_neg hj]
      exact .quiet (by simp [told,hp]) (by simp [asked,hp,hj]) rfl rfl rfl
  | deliver j =>
    refine ⟨_,getElem?_modify_of_some hp j _,.quiet (by simp [told,hp]) (by simp [asked,hp]) ?_ ?_ ?_⟩
    all_goals
      unfold Peer.deliver
      split_ifs
      · split <;> simp
      · rfl
      · rfl
  | accept =>
    have hasked : b.asked k .accept = [] := by simp [asked,hp]
    rcases @next_accept _ _ _ _ _ closing ends b with ⟨hnext,hnobody⟩ | ⟨q,hq,hstopped,hnext⟩
    · refine ⟨p,by rwa [hnext],.quiet ?_ hasked rfl rfl rfl⟩
      rcases hnobody with hstopped | hnone
      · simp [told,hp,hstopped]
      · have hk : b.accepted ≠ k := by
          rintro rfl
          cases hp.symm.trans hnone
        simp [told,hp,hk]
    · rw [hnext]
      refine ⟨_,accept_peers q hp,?_⟩
      by_cases hk : b.accepted = k
      · subst hk
        cases hp.symm.trans hq
        rw [if_pos rfl]
        split_ifs with htaken
        · exact ⟨rfl,by rw [told,hp]; simp [hstopped,htaken,Peer.tell],by rw [hasked,List.append_nil]; rfl⟩
        · exact .quiet (by rw [told,hp]; simp [htaken]) hasked rfl rfl rfl
      · rw [if_neg hk]
        exact .quiet (by simp [told,hp,hk]) hasked rfl rfl rfl
  | read j =>
    have htold : b.told closing k (.read j) = [] := by simp [told,hp]
    have hasked : b.asked k (.read j) = [] := by simp [asked,hp]
    rcases @next_read _ _ _ _ _ closing ends b j with hnext | ⟨q,r,rest,-,-,-,-,hnext⟩
    · exact ⟨p,by rwa [hnext],.quiet htold hasked rfl rfl rfl⟩
    · rw [hnext]
      refine ⟨_,getElem?_modify_of_some hp j _,?_⟩
      split_ifs
      · exact .quiet htold hasked rfl rfl Channel.take_sent
      · exact .quiet htold hasked rfl rfl rfl
  | publish msg accepts =>
    have hasked : b.asked k (.publish msg accepts) = [] := by simp [asked,hp]
    cases hstopped : b.stopped with
    | true => exact ⟨p,by simpa [next,hstopped] using hp,.quiet (by simp [told,hp,hstopped]) hasked rfl rfl rfl⟩
    | false =>
      refine ⟨p.offer b.topics msg accepts,by simp [next,hstopped,hp],?_⟩
      rw [Peer.offer]
      split_ifs with hwants
      · exact ⟨rfl,by rw [told,hp]; simp [hstopped,hwants,Peer.tell],by rw [hasked,List.append_nil]; rfl⟩
      · exact .quiet (by rw [told,hp]; simp [hwants]) hasked rfl rfl rfl
  | stop =>
    have hasked : b.asked k .stop = [] := by simp [asked,hp]
    cases hstopped : b.stopped with
    | true => exact ⟨p,by simpa [next,hstopped] using hp,.quiet (by simp [told,hp,hstopped]) hasked rfl rfl rfl⟩
    | false =>
      refine ⟨p.dismiss closing,by simp [next,hstopped,hp],?_⟩
      rw [Peer.dismiss]
      split_ifs with hconnected
      · exact ⟨rfl,by simp [told,hp,hstopped,hconnected,Peer.tell],by rw [hasked,List.append_nil]; rfl⟩
      · exact .quiet (by simp [told,hp,hconnected]) hasked rfl rfl rfl

/-- Only a start makes a program. -/
lemma next_new (hk : b.peers[k]? = none) {e : Event Name Topic Msg} {p' : Peer Name Topic Msg}
    (hp' : (b.next closing ends e).peers[k]? = some p') :
    p'.downstream.sent = [] ∧ p'.upstream.sent = [] := by
  have hlen := List.getElem?_eq_none_iff.mp hk
  have hlt := (List.getElem?_eq_some_iff.mp hp').1
  -- in the other cases there are as many programs as before
  have hsame : (b.next closing ends e).peers.length = b.peers.length → False := by omega
  cases e with
  | start name =>
    have hp : (b.peers ++ [⟨name,.empty,.empty,false,true⟩])[k]? = some p' := hp'
    rw [List.getElem?_append_right hlen] at hp
    rw [List.mem_singleton.mp (List.mem_of_getElem? hp)]
    exact ⟨rfl,rfl⟩
  | idle => exact absurd rfl hsame
  | request j r => exact (hsame (List.length_modify ..)).elim
  | deliver j => exact (hsame (List.length_modify ..)).elim
  | accept =>
    refine (hsame ?_).elim
    rcases @next_accept _ _ _ _ _ closing ends b with ⟨hnext,-⟩ | ⟨q,-,-,hnext⟩
    · rw [hnext]
    · rw [hnext]
      simp only [accept]
      split_ifs <;> exact List.length_modify ..
  | read j =>
    refine (hsame ?_).elim
    rcases @next_read _ _ _ _ _ closing ends b j with hnext | ⟨q,r,rest,-,-,-,-,hnext⟩
    · rw [hnext]
    · rw [hnext]
      exact List.length_modify ..
  | publish msg accepts =>
    refine (hsame ?_).elim
    simp only [next]
    split_ifs
    · rfl
    · exact List.length_map ..
  | stop =>
    refine (hsame ?_).elim
    simp only [next]
    split_ifs
    · rfl
    · exact List.length_map ..

/-- The streams of a program after a sequence of events. -/
theorem foldl_streams {es : List (Event Name Topic Msg)} {p' : Peer Name Topic Msg}
    (hp' : (es.foldl (next closing ends) b).peers[k]? = some p') :
    p'.downstream.sent = (b.peers[k]?).elim [] (·.downstream.sent) ++ toldBy closing ends k b es ∧
      p'.upstream.sent = (b.peers[k]?).elim [] (·.upstream.sent) ++ askedBy closing ends k b es := by
  induction es generalizing b with
  | nil =>
    have hp : b.peers[k]? = some p' := hp'
    simp [hp,toldBy,askedBy]
  | cons e es ih =>
    obtain ⟨htold,hasked⟩ := ih hp'
    rw [htold,hasked,toldBy,askedBy]
    cases hk : b.peers[k]? with
    | some p =>
      obtain ⟨q,hq,hgoes⟩ := @next_goes _ _ _ _ _ closing ends b k p hk e
      simp only [hq,Option.elim_some,hgoes.told_eq,hgoes.asked_eq,List.append_assoc,and_self]
    | none =>
      have hnone : b.told closing k e = [] ∧ b.asked k e = [] := by simp [told,asked,hk]
      rw [hnone.1,hnone.2]
      cases hq : (b.next closing ends e).peers[k]? with
      | none => simp
      | some q =>
        obtain ⟨hdown,hup⟩ := next_new hk hq
        simp [hdown,hup]

end History

end State

section Work

/-- What the service has to read from the program and the program to handle. -/
def Peer.work (p : Peer Name Topic Msg) : ℕ :=
  (if p.connected then p.upstream.pending.length else 0) + if p.running then p.downstream.pending.length else 0

def State.work (b : State Name Topic Msg) : ℕ := (b.peers.map Peer.work).sum

/-- A stopped service is connected to nobody. -/
def State.Parted (b : State Name Topic Msg) : Prop := b.stopped → ∀ p ∈ b.peers, p.connected = false

/-- Nobody has anything to read or to handle. -/
def State.Quiet (b : State Name Topic Msg) : Prop := ∀ p ∈ b.peers,
  (p.connected → p.upstream.pending = []) ∧ (p.running → p.downstream.pending = [])

/-- The event brings nothing new. -/
def Event.Drains : Event Name Topic Msg → Prop
  | .read _ => True
  | .deliver _ => True
  | _ => False

section Peers
variable {p : Peer Name Topic Msg} {ends : Msg → Bool}

lemma Peer.work_serve [DecidableEq Topic] {r : Request Topic} {rest : List (Request Topic)}
    (hconnected : p.connected) (hpending : p.upstream.pending = r :: rest) : (p.serve r).work < p.work := by
  simp only [Peer.work,Peer.serve,Channel.take_cons hpending,hconnected,hpending,if_true,List.length_cons]
  split_ifs <;> omega

lemma Peer.work_deliver {msg : Msg} {rest : List Msg} (hrun : p.running)
    (hpending : p.downstream.pending = msg :: rest) : (p.deliver ends).work < p.work := by
  have hdeliver : p.deliver ends = { p with downstream := p.downstream.take, running := !ends msg } := by
    rw [Peer.deliver,if_pos hrun,hpending]
  simp only [hdeliver,Peer.work,Channel.take_cons hpending,hrun,hpending,if_true,List.length_cons]
  split_ifs <;> omega

lemma work_modify {l : List (Peer Name Topic Msg)} {k : ℕ} (hp : l[k]? = some p)
    {f : Peer Name Topic Msg → Peer Name Topic Msg} (hf : (f p).work < p.work) :
    ((l.modify k f).map Peer.work).sum < (l.map Peer.work).sum := by
  induction l generalizing k with
  | nil => simp at hp
  | cons q l ih =>
    cases k with
    | zero =>
      cases hp
      change (f p).work + _ < p.work + _
      omega
    | succ k =>
      have hlt := ih hp
      change q.work + ((l.modify k f).map Peer.work).sum < q.work + (l.map Peer.work).sum
      omega

end Peers

namespace State
variable [DecidableEq Name] [DecidableEq Topic] {closing : Msg} {ends : Msg → Bool} {b : State Name Topic Msg}

lemma Parted.next (h : b.Parted) (e : Event Name Topic Msg) : (b.next closing ends e).Parted := by
  have hmodify : ∀ (k : ℕ) (f : Peer Name Topic Msg → Peer Name Topic Msg),
      (∀ p, (f p).connected = p.connected) → b.stopped → ∀ p ∈ b.peers.modify k f, p.connected = false := by
    intro k f hf hstopped p hp
    obtain ⟨i,hi⟩ := List.mem_iff_getElem?.mp hp
    obtain ⟨q,hq,rfl⟩ := getElem?_modify_some hi
    split_ifs
    · rw [hf]
      exact h hstopped q (List.mem_of_getElem? hq)
    · exact h hstopped q (List.mem_of_getElem? hq)
  unfold Parted
  intro hstopped p hp
  cases e with
  | start name =>
    rcases List.mem_append.mp hp with hp | hp
    · exact h hstopped p hp
    · rw [List.mem_singleton.mp hp]
  | idle => exact h hstopped p hp
  | request k r => exact hmodify k _ (fun q => by unfold Peer.request; split_ifs <;> rfl) hstopped p hp
  | deliver k =>
    refine hmodify k _ (fun q => ?_) hstopped p hp
    unfold Peer.deliver
    split_ifs
    · split <;> rfl
    · rfl
  | accept =>
    rcases @next_accept _ _ _ _ _ closing ends b with ⟨hnext,-⟩ | ⟨q,-,hrunning,hnext⟩
    · rw [hnext] at hstopped hp
      exact h hstopped p hp
    · rw [hnext] at hstopped
      exact absurd (hrunning.symm.trans hstopped) (by simp)
  | read k =>
    rcases @next_read _ _ _ _ _ closing ends b k with hnext | ⟨q,r,rest,-,-,-,hrunning,hnext⟩
    · rw [hnext] at hstopped hp
      exact h hstopped p hp
    · rw [hnext] at hstopped
      exact absurd (hrunning.symm.trans hstopped) (by simp)
  | publish msg accepts =>
    simp only [State.next] at hstopped hp
    split_ifs at hstopped hp with hs
    · exact h hs p hp
    · exact absurd hstopped hs
  | stop =>
    simp only [State.next] at hstopped hp
    split_ifs at hstopped hp with hs
    · exact h hs p hp
    · obtain ⟨q,-,rfl⟩ := List.mem_map.mp hp
      unfold Peer.dismiss
      split_ifs with hq
      · rfl
      · exact Bool.eq_false_of_not_eq_true hq

/-- Where there is work, a read or a delivery does some. -/
lemma exists_drains (hparted : b.Parted) (hwork : ¬ b.Quiet) :
    ∃ e : Event Name Topic Msg, e.Drains ∧ (b.next closing ends e).work < b.work := by
  simp only [Quiet,not_forall,not_and_or] at hwork
  obtain ⟨p,hmem,⟨hconnected,hpending⟩ | ⟨hrun,hpending⟩⟩ := hwork
  · obtain ⟨k,hp⟩ := List.mem_iff_getElem?.mp hmem
    obtain ⟨r,rest,hpending⟩ := List.exists_cons_of_ne_nil hpending
    have hstopped : ¬ b.stopped = true := fun hs => absurd hconnected (by simp [hparted hs p hmem])
    refine ⟨.read k,trivial,?_⟩
    have hnext : b.next closing ends (.read k) = b.execute k p r := by
      simp only [State.next,if_neg hstopped,hp,if_pos hconnected,hpending]
    rw [hnext]
    exact work_modify hp (Peer.work_serve hconnected hpending)
  · obtain ⟨k,hp⟩ := List.mem_iff_getElem?.mp hmem
    obtain ⟨msg,rest,hpending⟩ := List.exists_cons_of_ne_nil hpending
    exact ⟨.deliver k,trivial,work_modify hp (Peer.work_deliver hrun hpending)⟩

/-- Without anything new the queues run empty, after as many events as there is work at most. -/
theorem exists_quiet (hparted : b.Parted) : ∃ es : List (Event Name Topic Msg), (∀ e ∈ es, e.Drains) ∧
    es.length ≤ b.work ∧ (es.foldl (next closing ends) b).Quiet := by
  induction hn : b.work using Nat.strong_induction_on generalizing b with
  | _ n ih =>
    by_cases hquiet : b.Quiet
    · exact ⟨[],by simp,Nat.zero_le _,hquiet⟩
    · obtain ⟨e,he,hlt⟩ := exists_drains hparted hquiet
      obtain ⟨es,hes,hlen,hend⟩ := ih _ (hn ▸ hlt) (hparted.next e) rfl
      refine ⟨e :: es,?_,?_,hend⟩
      · intro e' he'
        rcases List.mem_cons.mp he' with rfl | he'
        · exact he
        · exact hes e' he'
      · rw [List.length_cons]
        omega

end State

end Work

end Broker
