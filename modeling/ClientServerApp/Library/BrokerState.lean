import ClientServerApp.Library.Broker

/-! What holds of the service and its programs in every state, and what it says about the streams between them. -/
namespace Broker
variable {Name Topic Msg : Type}

section Updates
variable {α : Type} {l : List α} {f : α → α} {k i : ℕ} {x : α}

lemma getElem?_modify_some (h : (l.modify k f)[i]? = some x) :
    ∃ y, l[i]? = some y ∧ x = if k = i then f y else y := by
  rw [List.getElem?_modify] at h
  obtain ⟨y,hy,hx⟩ := Option.map_eq_some_iff.mp h
  refine ⟨y,hy,?_⟩
  split_ifs at hx ⊢ with hk <;> exact hx.symm

end Updates

namespace State

section Changes
variable (ends : Msg → Bool) [DecidableEq Name] [DecidableEq Topic]

/-- What holds in every state. The service is connected to one program of a name at a time, and what it keeps for
the name is what the requests read from these programs make of the empty set. -/
structure Sound (b : State Name Topic Msg) : Prop where
  peer {p : Peer Name Topic Msg} : p ∈ b.peers → p.Sound ends
  accepted_le : b.accepted ≤ b.peers.length
  waiting {k : ℕ} {p : Peer Name Topic Msg} : b.peers[k]? = some p → b.accepted ≤ k →
    p.connected = false ∧ p.upstream.received = [] ∧ p.downstream.sent = []
  answered {k : ℕ} {p : Peer Name Topic Msg} : b.peers[k]? = some p → k < b.accepted → p.connected = false →
    .close ∈ p.upstream.received ∨ ∃ msg ∈ p.downstream.sent, ends msg
  alone {k l : ℕ} {p q : Peer Name Topic Msg} : k < l → b.peers[k]? = some p → b.peers[l]? = some q →
    q.name = p.name → p.connected → q.connected = false ∧ q.upstream.received = []
  topics (name : Name) (topic : Topic) : topic ∈ b.topics name ↔
    LastWrite.valueAfter (· == ·) ((b.requests name).filterMap Request.call) topic = some ()

variable {ends} {b : State Name Topic Msg} {peers peers' : List (Peer Name Topic Msg)}

omit [DecidableEq Name] [DecidableEq Topic]

lemma forall₂_some {α : Type} {R : α → α → Prop} {l l' : List α} (h : List.Forall₂ R l l') {k : ℕ} {x' : α}
    (hx' : l'[k]? = some x') : ∃ x, l[k]? = some x ∧ R x x' := by
  induction h generalizing k with
  | nil => simp at hx'
  | @cons a b l l' hab _ ih =>
    cases k with
    | zero => exact ⟨a,rfl,by simpa [← Option.some_injective _ hx'] using hab⟩
    | succ k => exact ih hx'

lemma forall₂_modify {α : Type} {R : α → α → Prop} (hrefl : ∀ x, R x x) {l : List α} {f : α → α} {k : ℕ}
    (hf : ∀ x, l[k]? = some x → R x (f x)) : List.Forall₂ R l (l.modify k f) := by
  induction l generalizing k with
  | nil => simp
  | cons x l ih =>
    cases k with
    | zero => exact .cons (hf x rfl) (List.forall₂_same.mpr fun y _ => hrefl y)
    | succ k => exact .cons (hrefl x) (ih fun y hy => hf y hy)

lemma forall₂_map {f : Peer Name Topic Msg → Peer Name Topic Msg}
    (hf : ∀ p : Peer Name Topic Msg, p.Follows ends (f p)) :
    List.Forall₂ (Peer.Follows ends) peers (peers.map f) :=
  List.forall₂_map_right_iff.mpr (List.forall₂_same.mpr fun p _ => hf p)

variable [DecidableEq Name]

lemma requests_of_forall₂ (h : List.Forall₂ Peer.SameReads b.peers peers) (accepted : ℕ)
    (topics : Name → Finset Topic) (stopped : Bool) (name : Name) :
    requests ⟨peers,accepted,topics,stopped⟩ name = b.requests name := by
  simp only [requests]
  generalize b.peers = before at h
  induction h with
  | nil => rfl
  | cons hp _ ih => rw [List.flatMap_cons,List.flatMap_cons,ih,hp.name_eq,hp.received_eq]

variable [DecidableEq Topic]

/-- Such changes keep the invariant. -/
theorem Sound.change (h : b.Sound ends) (hpeers : List.Forall₂ (Peer.Follows ends) b.peers peers)
    (hpeer : ∀ p ∈ peers, p.Sound ends) (stopped : Bool) : Sound ends ⟨peers,b.accepted,b.topics,stopped⟩ where
  peer hp := hpeer _ hp
  accepted_le := h.accepted_le.trans_eq hpeers.length_eq
  waiting := by
    intro k p' hp' hk
    obtain ⟨p,hp,hfollows⟩ := forall₂_some hpeers hp'
    obtain ⟨hconnected,hreceived,hsent⟩ := h.waiting hp hk
    refine ⟨?_,hfollows.received_eq.trans hreceived,(hfollows.sent_eq hconnected).trans hsent⟩
    cases hc : p'.connected with
    | false => rfl
    | true => exact absurd (hfollows.connected_of hc) (by simp [hconnected])
  answered := by
    intro k p' hp' hk hc
    obtain ⟨p,hp,hfollows⟩ := forall₂_some hpeers hp'
    cases hconnected : p.connected with
    | true => exact .inr (hfollows.told hconnected hc)
    | false =>
      rw [hfollows.received_eq,hfollows.sent_eq hconnected]
      exact h.answered hp hk hconnected
  alone := by
    intro k l p' q' hkl hp' hq' hname hc
    obtain ⟨p,hp,hfollows⟩ := forall₂_some hpeers hp'
    obtain ⟨q,hq,hfollows'⟩ := forall₂_some hpeers hq'
    obtain ⟨hconnected,hreceived⟩ := h.alone hkl hp hq (hfollows'.name_eq.symm.trans (hname.trans hfollows.name_eq))
      (hfollows.connected_of hc)
    refine ⟨?_,hfollows'.received_eq.trans hreceived⟩
    cases hc' : q'.connected with
    | false => rfl
    | true => exact absurd (hfollows'.connected_of hc') (by simp [hconnected])
  topics name topic := by
    rw [requests_of_forall₂ (hpeers.imp fun _ _ hp => hp.toSameReads)]
    exact h.topics name topic

end Changes

section Next
variable [DecidableEq Name] [DecidableEq Topic] {closing : Msg} {ends : Msg → Bool} {b : State Name Topic Msg}

lemma sound_empty : (empty : State Name Topic Msg).Sound ends where
  peer hp := absurd hp List.not_mem_nil
  accepted_le := le_refl 0
  waiting hp := by simp [empty] at hp
  answered hp := by simp [empty] at hp
  alone _ hp := by simp [empty] at hp
  topics _ _ := by simp [empty,requests]

lemma Sound.start (h : b.Sound ends) (name : Name) : (b.next closing ends (.start name)).Sound ends := by
  have hrequests : ∀ n, (b.next closing ends (.start name)).requests n = b.requests n := by
    intro n
    simp [next,requests,Channel.empty]
  -- the new program is behind the others, and nothing was read from it
  have hpeers : ∀ {k p}, (b.peers ++ [⟨name,.empty,.empty,false,true⟩])[k]? = some p → b.peers[k]? = some p ∨
      k = b.peers.length ∧ p = ⟨name,.empty,.empty,false,true⟩ := by
    intro k p hp
    by_cases hk : k < b.peers.length
    · rw [List.getElem?_append_left hk] at hp
      exact .inl hp
    · rw [List.getElem?_append_right (not_lt.mp hk)] at hp
      obtain ⟨hlt,heq⟩ := List.getElem?_eq_some_iff.mp hp
      rw [List.length_singleton] at hlt
      exact .inr ⟨by omega,by simpa using heq.symm⟩
  refine ⟨fun hp => ?_,?_,fun hp hk => ?_,fun hp hk hc => ?_,fun hkl hp hq hname hc => ?_,fun n topic => ?_⟩
  · rcases List.mem_append.mp hp with hp | hp
    · exact h.peer hp
    · rw [List.mem_singleton.mp hp]
      constructor <;> simp [Channel.empty,Channel.sent]
  · exact h.accepted_le.trans (by simp [next])
  · rcases hpeers hp with hp | ⟨-,rfl⟩
    · exact h.waiting hp hk
    · exact ⟨rfl,rfl,rfl⟩
  · rcases hpeers hp with hp | ⟨rfl,rfl⟩
    · exact h.answered hp hk hc
    · exact absurd hk (not_lt.mpr h.accepted_le)
  · rcases hpeers hp with hp | ⟨rfl,rfl⟩
    · rcases hpeers hq with hq | ⟨rfl,rfl⟩
      · exact h.alone hkl hp hq hname hc
      · exact ⟨rfl,rfl⟩
    · simp at hc
  · rw [hrequests]
    exact h.topics n topic

/-- A name has one connected program at most. -/
lemma Sound.unique (h : b.Sound ends) {k l : ℕ} {p q : Peer Name Topic Msg} (hp : b.peers[k]? = some p)
    (hq : b.peers[l]? = some q) (hname : q.name = p.name) (hcp : p.connected) (hcq : q.connected) : k = l := by
  by_contra hne
  rcases lt_or_gt_of_ne hne with hkl | hkl
  · exact absurd hcq (by simp [(h.alone hkl hp hq hname hcp).1])
  · exact absurd hcp (by simp [(h.alone hkl hq hp hname.symm hcq).1])

/-- The next program in line gets an answer: it is connected, or told that it is not. -/
lemma Sound.answer (h : b.Sound ends) {p : Peer Name Topic Msg} {f : Peer Name Topic Msg → Peer Name Topic Msg}
    (hp : b.peers[b.accepted]? = some p) (hname : (f p).name = p.name)
    (hreceived : (f p).upstream.received = p.upstream.received) (hsound : (f p).Sound ends)
    (htold : (f p).connected = false → ∃ msg ∈ (f p).downstream.sent, ends msg)
    (hfree : (f p).connected → ∀ q ∈ b.peers, q.connected → q.name ≠ p.name) :
    Sound ends ⟨b.peers.modify b.accepted f,b.accepted+1,b.topics,b.stopped⟩ := by
  have hold := (h.waiting hp (le_refl _)).2.1
  -- the others are as they were
  have hpeers : ∀ {k q}, (b.peers.modify b.accepted f)[k]? = some q →
      k = b.accepted ∧ q = f p ∨ k ≠ b.accepted ∧ b.peers[k]? = some q := by
    intro k q hq
    obtain ⟨q',hq',rfl⟩ := getElem?_modify_some hq
    by_cases hk : b.accepted = k
    · subst hk
      cases hp.symm.trans hq'
      exact .inl ⟨rfl,if_pos rfl⟩
    · rw [if_neg hk]
      exact .inr ⟨Ne.symm hk,hq'⟩
  refine ⟨fun hq => ?_,?_,fun hq hk => ?_,fun hq hk hc => ?_,fun hkl hq hq' hn hc => ?_,fun n topic => ?_⟩
  · obtain ⟨k,hq⟩ := List.mem_iff_getElem?.mp hq
    rcases hpeers hq with ⟨-,rfl⟩ | ⟨-,hq⟩
    · exact hsound
    · exact h.peer (List.mem_of_getElem? hq)
  · rw [List.length_modify]
    exact (List.getElem?_eq_some_iff.mp hp).1
  · simp only at hk
    rcases hpeers hq with ⟨hk',-⟩ | ⟨-,hq⟩
    · omega
    · exact h.waiting hq (by omega)
  · simp only at hk
    rcases hpeers hq with ⟨-,rfl⟩ | ⟨hk',hq⟩
    · exact .inr (htold hc)
    · exact h.answered hq (by omega) hc
  · rcases hpeers hq with ⟨rfl,rfl⟩ | ⟨hk,hq⟩
    · rcases hpeers hq' with ⟨hk',-⟩ | ⟨-,hq'⟩
      · omega
      · obtain ⟨hc',hr,-⟩ := h.waiting hq' (by omega)
        exact ⟨hc',hr⟩
    · rcases hpeers hq' with ⟨-,rfl⟩ | ⟨-,hq'⟩
      · refine ⟨?_,hreceived.trans hold⟩
        cases hc' : (f p).connected with
        | false => rfl
        | true => exact absurd (hn.symm.trans hname) (hfree hc' _ (List.mem_of_getElem? hq) hc)
      · exact h.alone hkl hq hq' hn hc
  · rw [requests_of_forall₂ (forall₂_modify (fun q => ⟨rfl,rfl⟩) fun q hq => ?_)]
    · exact h.topics n topic
    · cases hp.symm.trans hq
      exact ⟨hname,hreceived⟩

lemma Sound.accept (h : b.Sound ends) (hclosing : ends closing = true) {p : Peer Name Topic Msg}
    (hp : b.peers[b.accepted]? = some p) : (b.accept closing p).Sound ends := by
  obtain ⟨hconnected,hreceived,hsent⟩ := h.waiting hp (le_refl _)
  have hpeer := h.peer (List.mem_of_getElem? hp)
  have hnone : ∀ msg ∈ p.downstream.sent, ends msg = false := by simp [hsent]
  by_cases htaken : ∃ q ∈ b.peers, q.connected ∧ q.name = p.name
  · rw [State.accept,if_pos htaken]
    refine h.answer hp rfl rfl (hpeer.tell hnone fun hc => ?_) (fun _ => ⟨closing,?_,hclosing⟩) fun hc => ?_
    · exact absurd hc (by simp [hconnected])
    · change _ ∈ (p.downstream.push closing).sent
      simp
    · exact absurd hc (by simp [Peer.tell,hconnected])
  · rw [State.accept,if_neg htaken]
    refine h.answer hp rfl rfl ?_ (fun hc => absurd hc (by simp)) fun _ q hq hc hn => htaken ⟨q,hq,hc,hn⟩
    exact ⟨hpeer.closing_last,hpeer.closing_of_running,fun _ => by simp [hreceived],hpeer.ending_last,
      fun _ => hnone _,hpeer.alive,hpeer.ended⟩

omit [DecidableEq Name] [DecidableEq Topic] in
/-- One element of a list gives more, behind which the others give nothing. -/
lemma flatMap_modify {α β : Type} {g : α → List β} {f : α → α} {more : List β} {l : List α} {k : ℕ} {x : α}
    (hx : l[k]? = some x) (hf : g (f x) = g x ++ more)
    (hlater : more ≠ [] → ∀ j y, k < j → l[j]? = some y → g y = []) :
    (l.modify k f).flatMap g = l.flatMap g ++ more := by
  induction l generalizing k with
  | nil => simp at hx
  | cons y l ih =>
    cases k with
    | zero =>
      cases hx
      change g (f x) ++ l.flatMap g = g x ++ l.flatMap g ++ more
      by_cases hmore : more = []
      · simp [hf,hmore]
      · have hrest : l.flatMap g = [] := List.flatMap_eq_nil_iff.mpr fun z hz => by
          obtain ⟨j,hj⟩ := List.mem_iff_getElem?.mp hz
          exact hlater hmore (j+1) z (Nat.succ_pos j) hj
        simp [hf,hrest]
    | succ k =>
      change g y ++ (l.modify k f).flatMap g = g y ++ l.flatMap g ++ more
      rw [ih hx fun hmore j z hj hz => hlater hmore (j+1) z (by omega) hz,List.append_assoc]

/-- A request as a write. -/
lemma mem_apply (topics : Finset Topic) (writes : List (LastWrite.Call Topic Unit))
    (h : ∀ topic, topic ∈ topics ↔ LastWrite.valueAfter (· == ·) writes topic = some ()) (r : Request Topic)
    (topic : Topic) : topic ∈ r.apply topics ↔
      LastWrite.valueAfter (· == ·) (writes ++ r.call.toList) topic = some () := by
  cases r with
  | close => simpa [Request.apply,Request.call] using h topic
  | subscribe t =>
    simp only [Request.apply,Request.call,Option.toList_some,LastWrite.valueAfter_concat,Finset.mem_insert,h,
      LastWrite.Call.key,LastWrite.Call.value,beq_iff_eq]
    by_cases ht : t = topic
    · simp [ht]
    · simp [ht,Ne.symm ht]
  | unsubscribe t =>
    simp only [Request.apply,Request.call,Option.toList_some,LastWrite.valueAfter_concat,Finset.mem_erase,h,
      LastWrite.Call.key,LastWrite.Call.value,beq_iff_eq]
    by_cases ht : t = topic
    · simp [ht]
    · simp [ht,Ne.symm ht]

/-- The requests of a connected program are the last ones under its name. -/
lemma Sound.requests_execute (h : b.Sound ends) {k : ℕ} {p : Peer Name Topic Msg} (hp : b.peers[k]? = some p)
    (hconnected : p.connected) {r : Request Topic} {rest : List (Request Topic)}
    (hpending : p.upstream.pending = r :: rest) (name : Name) :
    (b.execute k p r).requests name = b.requests name ++ if p.name = name then [r] else [] := by
  refine flatMap_modify hp ?_ fun hmore j q hj hq => ?_
  · simp only [Peer.serve,Channel.take_cons hpending]
    split_ifs <;> simp
  · by_cases hname : p.name = name
    · by_cases hq' : q.name = name
      · rw [if_pos hq']
        exact (h.alone hj hp hq (hq'.trans hname.symm) hconnected).2
      · exact if_neg hq'
    · simp [hname] at hmore

lemma Sound.execute (h : b.Sound ends) {k : ℕ} {p : Peer Name Topic Msg} (hp : b.peers[k]? = some p)
    (hconnected : p.connected) {r : Request Topic} {rest : List (Request Topic)}
    (hpending : p.upstream.pending = r :: rest) : (b.execute k p r).Sound ends := by
  have hserve : p.serve r = { p with upstream := ⟨p.upstream.received ++ [r],rest⟩, connected := r ≠ .close } := by
    rw [Peer.serve,Channel.take_cons hpending]
  have hpeers : ∀ {i q}, (b.peers.modify k (·.serve r))[i]? = some q →
      i = k ∧ q = p.serve r ∨ i ≠ k ∧ b.peers[i]? = some q := by
    intro i q hq
    obtain ⟨q',hq',rfl⟩ := getElem?_modify_some hq
    by_cases hk : k = i
    · subst hk
      cases hp.symm.trans hq'
      exact .inl ⟨rfl,if_pos rfl⟩
    · rw [if_neg hk]
      exact .inr ⟨Ne.symm hk,hq'⟩
  refine ⟨fun hq => ?_,?_,fun hq hk => ?_,fun hq hk hc => ?_,fun hkl hq hq' hn hc => ?_,fun n topic => ?_⟩
  · obtain ⟨i,hq⟩ := List.mem_iff_getElem?.mp hq
    rcases hpeers hq with ⟨-,rfl⟩ | ⟨-,hq⟩
    · exact (h.peer (List.mem_of_getElem? hp)).serve hpending hconnected
    · exact h.peer (List.mem_of_getElem? hq)
  · exact h.accepted_le.trans (List.length_modify ..).ge
  · rcases hpeers hq with ⟨rfl,-⟩ | ⟨-,hq⟩
    · exact absurd hconnected (by simp [(h.waiting hp hk).1])
    · exact h.waiting hq hk
  · rcases hpeers hq with ⟨-,rfl⟩ | ⟨-,hq⟩
    · rw [hserve] at hc ⊢
      have hclose : r = .close := by simpa using hc
      exact .inl (by simp [hclose])
    · exact h.answered hq hk hc
  · rcases hpeers hq with ⟨rfl,rfl⟩ | ⟨-,hold⟩
    · rcases hpeers hq' with ⟨hk,-⟩ | ⟨-,hold'⟩
      · omega
      · exact h.alone hkl hp hold' (by rw [hn,hserve]) hconnected
    · rcases hpeers hq' with ⟨rfl,rfl⟩ | ⟨-,hold'⟩
      · exact absurd hconnected (by simp [(h.alone hkl hold hp hn hc).1])
      · exact h.alone hkl hold hold' hn hc
  · rw [h.requests_execute hp hconnected hpending,List.filterMap_append]
    change topic ∈ Function.update b.topics p.name (r.apply (b.topics p.name)) n ↔ _
    by_cases hn : n = p.name
    · subst hn
      rw [Function.update_self,if_pos rfl,mem_apply _ _ (h.topics p.name)]
      cases r <;> rfl
    · rw [Function.update_of_ne hn,if_neg (Ne.symm hn),List.filterMap_nil,List.append_nil]
      exact h.topics n topic

/-- What a publisher sends ends nobody. -/
def Harmless (ends : Msg → Bool) : Event Name Topic Msg → Prop
  | .publish msg _ => ends msg = false
  | _ => True

/-- Every event keeps the invariant. -/
theorem Sound.next (h : b.Sound ends) (hclosing : ends closing = true) {e : Event Name Topic Msg}
    (he : Harmless ends e) : (b.next closing ends e).Sound ends := by
  have hmodify : ∀ (k : ℕ) {f : Peer Name Topic Msg → Peer Name Topic Msg},
      (∀ p : Peer Name Topic Msg, p.Follows ends (f p)) →
      (∀ p : Peer Name Topic Msg, p.Sound ends → (f p).Sound ends) →
      Sound ends { b with peers := b.peers.modify k f } := by
    intro k f hf hsound
    refine h.change (forall₂_modify Peer.Follows.refl fun p _ => hf p) (fun p' hp' => ?_) b.stopped
    obtain ⟨i,hi⟩ := List.mem_iff_getElem?.mp hp'
    obtain ⟨p,hp,rfl⟩ := getElem?_modify_some hi
    have hpeer := h.peer (List.mem_of_getElem? hp)
    split_ifs
    · exact hsound p hpeer
    · exact hpeer
  have hmap : ∀ (stopped : Bool) {f : Peer Name Topic Msg → Peer Name Topic Msg},
      (∀ p : Peer Name Topic Msg, p.Follows ends (f p)) →
      (∀ p : Peer Name Topic Msg, p.Sound ends → (f p).Sound ends) →
      Sound ends { b with peers := b.peers.map f, stopped := stopped } := by
    intro stopped f hf hsound
    refine h.change (forall₂_map hf) (fun p' hp' => ?_) stopped
    obtain ⟨p,hp,rfl⟩ := List.mem_map.mp hp'
    exact hsound p (h.peer hp)
  cases e with
  | start name => exact h.start name
  | idle => exact h
  | request k r => exact hmodify k (fun p => p.follows_request r) fun p hp => hp.request
  | deliver k => exact hmodify k Peer.follows_deliver fun p hp => hp.deliver
  | accept =>
    simp only [State.next]
    split_ifs
    · exact h
    · split
      · exact h
      · exact h.accept hclosing ‹_›
  | read k =>
    simp only [State.next]
    split_ifs
    · exact h
    · split
      · exact h
      · split_ifs with hconnected
        · split
          · exact h
          · exact h.execute ‹_› hconnected ‹_›
        · exact h
  | publish msg accepts =>
    simp only [State.next]
    split_ifs
    · exact h
    · exact hmap b.stopped (fun p => p.follows_offer b.topics msg accepts) fun p hp => hp.offer he
  | stop =>
    simp only [State.next]
    split_ifs
    · exact h
    · exact hmap true (fun p => p.follows_dismiss hclosing) fun p hp => hp.dismiss

section Consequences
variable (h : b.Sound ends) {k : ℕ} {p : Peer Name Topic Msg} (hp : b.peers[k]? = some p)
include h hp

/-- A program that closed its connection has nothing more on the way to the service. -/
lemma Sound.drained_of_close (hclose : .close ∈ p.upstream.received) : p.upstream.pending = [] := by
  by_contra hpending
  refine (h.peer (List.mem_of_getElem? hp)).closing_last ?_
  rw [Channel.sent,List.dropLast_append_of_ne_nil hpending]
  exact List.mem_append_left _ hclose

/-- As long as the service is connected to a program that it has nothing to read from, the program runs. -/
lemma Sound.running_of_drained (hconnected : p.connected) (hpending : p.upstream.pending = []) : p.running := by
  have hpeer := h.peer (List.mem_of_getElem? hp)
  cases hrun : p.running with
  | true => rfl
  | false =>
    rcases hpeer.ended hrun with hclose | ⟨msg,hmsg,hends⟩
    · rw [Channel.sent,hpending,List.append_nil] at hclose
      exact absurd hclose (hpeer.unread hconnected)
    · have hopen := hpeer.served hconnected (Channel.mem_sent.mpr (.inl hmsg))
      exact absurd hends (by simp [hopen])

/-- A program that runs on after its connection was answered and given up has an ending message on the way to it. -/
lemma Sound.told_of_running (hk : k < b.accepted) (hconnected : p.connected = false) (hrun : p.running) :
    ∃ msg ∈ p.downstream.pending, ends msg := by
  have hpeer := h.peer (List.mem_of_getElem? hp)
  rcases h.answered hp hk hconnected with hclose | ⟨msg,hmsg,hends⟩
  · exact absurd (Channel.mem_sent.mpr (.inl hclose)) (hpeer.closing_of_running hrun)
  · rcases Channel.mem_sent.mp hmsg with hmsg | hmsg
    · exact absurd hends (by simp [hpeer.alive hrun hmsg])
    · exact ⟨msg,hmsg,hends⟩

end Consequences

end Next

end State

end Broker
