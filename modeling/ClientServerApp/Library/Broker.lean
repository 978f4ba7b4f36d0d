import ClientServerApp.Library.LastWrite
import Mathlib.Data.Finset.Basic

/-! A publish-subscribe service with the programs that use it. A program and the service talk over two queues;
the service serves one program of a name at a time and keeps the topics of a name between its sessions. -/

/-- A stream between two programs: what its reader has taken and what is on its way, oldest first. -/
structure Channel (α : Type) where
  received : List α
  pending : List α

namespace Channel
variable {α β : Type}

def empty : Channel α := ⟨[],[]⟩

/-- What was ever sent. -/
def sent (c : Channel α) : List α := c.received ++ c.pending

def push (a : α) (c : Channel α) : Channel α := { c with pending := c.pending ++ [a] }

/-- The reader takes the oldest. -/
def take (c : Channel α) : Channel α := match c.pending with
  | [] => c
  | a :: rest => ⟨c.received ++ [a],rest⟩

def map (f : α → β) (c : Channel α) : Channel β := ⟨c.received.map f,c.pending.map f⟩

variable (c : Channel α) (f : α → β) (a : α)

@[simp] theorem push_received : (c.push a).received = c.received := rfl
@[simp] theorem push_pending : (c.push a).pending = c.pending ++ [a] := rfl
@[simp] theorem push_sent : (c.push a).sent = c.sent ++ [a] := (List.append_assoc _ _ _).symm
@[simp] theorem map_received : (c.map f).received = c.received.map f := rfl
@[simp] theorem map_pending : (c.map f).pending = c.pending.map f := rfl
@[simp] theorem map_push : (c.push a).map f = (c.map f).push (f a) := by simp [push,map]

variable {c a}

lemma take_cons {rest : List α} (h : c.pending = a :: rest) : c.take = ⟨c.received ++ [a],rest⟩ := by
  rw [take,h]

lemma take_nil (h : c.pending = []) : c.take = c := by
  rw [take,h]

@[simp] theorem take_sent : c.take.sent = c.sent := by
  cases h : c.pending with
  | nil => rw [take_nil h]
  | cons a rest => simp [take_cons h,sent,h]

@[simp] theorem map_take : c.take.map f = (c.map f).take := by
  cases h : c.pending with
  | nil => rw [take_nil h,take_nil (by simp [h])]
  | cons a rest => rw [take_cons h,take_cons (c := c.map f) (by simp [h]; exact ⟨rfl,rfl⟩)]; simp [map]

lemma mem_sent : a ∈ c.sent ↔ a ∈ c.received ∨ a ∈ c.pending := List.mem_append

end Channel

namespace Broker

inductive Request (Topic : Type)
  | subscribe (topic : Topic)
  | unsubscribe (topic : Topic)
  | close
  deriving DecidableEq

/-- A program: its name, its queues, whether the service is connected to it and whether it still runs. -/
structure Peer (Name Topic Msg : Type) where
  name : Name
  upstream : Channel (Request Topic)
  downstream : Channel Msg
  connected : Bool
  running : Bool

/-- The programs in the order in which they ask for a connection, how many of them were answered, and the topics
of each name. -/
structure State (Name Topic Msg : Type) where
  peers : List (Peer Name Topic Msg)
  accepted : ℕ
  topics : Name → Finset Topic
  stopped : Bool

inductive Event (Name Topic Msg : Type)
  | start (name : Name)
  | request (k : ℕ) (r : Request Topic)
  | accept
  | read (k : ℕ)
  | publish (msg : Msg) (accepts : Topic → Bool)
  | deliver (k : ℕ)
  | stop
  | idle

variable {Name Topic Msg : Type}

namespace Request

/-- The request as a write to the set of topics. -/
def call : Request Topic → Option (LastWrite.Call Topic Unit)
  | subscribe topic => some (.put topic ())
  | unsubscribe topic => some (.remove topic)
  | close => none

/-- The topics after the request. -/
def apply [DecidableEq Topic] (topics : Finset Topic) : Request Topic → Finset Topic
  | subscribe topic => insert topic topics
  | unsubscribe topic => topics.erase topic
  | close => topics

end Request

namespace Peer
variable (p : Peer Name Topic Msg)

/-- A program that sends a closing request ends. -/
def request [DecidableEq Topic] (r : Request Topic) : Peer Name Topic Msg :=
  if p.running then { p with upstream := p.upstream.push r, running := r ≠ .close } else p

def tell (msg : Msg) : Peer Name Topic Msg := { p with downstream := p.downstream.push msg }

/-- The service has read the request. -/
def serve [DecidableEq Topic] (r : Request Topic) : Peer Name Topic Msg :=
  { p with upstream := p.upstream.take, connected := r ≠ .close }

/-- The program handles the next message; a closing one ends it. -/
def deliver (ends : Msg → Bool) : Peer Name Topic Msg :=
  if p.running then match p.downstream.pending with
    | [] => p
    | msg :: _ => { p with downstream := p.downstream.take, running := !ends msg }
  else p

/-- A connected program that wants the message is sent it. -/
def offer (topics : Name → Finset Topic) (msg : Msg) (accepts : Topic → Bool) : Peer Name Topic Msg :=
  if p.connected ∧ ∃ topic ∈ topics p.name, accepts topic then p.tell msg else p

def dismiss (closing : Msg) : Peer Name Topic Msg :=
  if p.connected then { p.tell closing with connected := false } else p

end Peer

namespace State
variable [DecidableEq Name] [DecidableEq Topic] (closing : Msg) (ends : Msg → Bool) (b : State Name Topic Msg)

def empty : State Name Topic Msg := ⟨[],0,fun _ => ∅,false⟩

/-- The next program in line is connected, unless one of its name is. -/
def accept (p : Peer Name Topic Msg) : State Name Topic Msg where
  peers := if ∃ q ∈ b.peers, q.connected ∧ q.name = p.name then b.peers.modify b.accepted (·.tell closing)
    else b.peers.modify b.accepted ({ · with connected := true })
  accepted := b.accepted+1
  topics := b.topics
  stopped := b.stopped

/-- The service executes a request of program `k`. -/
def execute (k : ℕ) (p : Peer Name Topic Msg) (r : Request Topic) : State Name Topic Msg :=
  { b with peers := b.peers.modify k (·.serve r),
           topics := Function.update b.topics p.name (r.apply (b.topics p.name)) }

/-- A service that has stopped does nothing. -/
def next : Event Name Topic Msg → State Name Topic Msg
  | .start name => { b with peers := b.peers ++ [⟨name,.empty,.empty,false,true⟩] }
  | .request k r => { b with peers := b.peers.modify k (·.request r) }
  | .deliver k => { b with peers := b.peers.modify k (·.deliver ends) }
  | .accept => if b.stopped then b else match b.peers[b.accepted]? with
    | none => b
    | some p => b.accept closing p
  | .read k => if b.stopped then b else match b.peers[k]? with
    | none => b
    | some p => if p.connected then match p.upstream.pending with
        | [] => b
        | r :: _ => b.execute k p r
      else b
  | .publish msg accepts => if b.stopped then b else { b with peers := b.peers.map (·.offer b.topics msg accepts) }
  | .stop => if b.stopped then b else { b with peers := b.peers.map (·.dismiss closing), stopped := true }
  | .idle => b

/-- The requests under a name that the service has read, session after session. -/
def requests (name : Name) : List (Request Topic) :=
  b.peers.flatMap fun p => if p.name = name then p.upstream.received else []

end State

namespace Peer
variable (ends : Msg → Bool)

/-- What holds of every program. A closing request is the last it sends, and an ending message the last it is
sent; it runs until one of them. -/
structure Sound (p : Peer Name Topic Msg) : Prop where
  closing_last : .close ∉ p.upstream.sent.dropLast
  closing_of_running : p.running → .close ∉ p.upstream.sent
  unread : p.connected → .close ∉ p.upstream.received
  ending_last {msg : Msg} : msg ∈ p.downstream.sent.dropLast → ends msg = false
  served {msg : Msg} : p.connected → msg ∈ p.downstream.sent → ends msg = false
  alive {msg : Msg} : p.running → msg ∈ p.downstream.received → ends msg = false
  ended : p.running = false → .close ∈ p.upstream.sent ∨ ∃ msg ∈ p.downstream.received, ends msg

/-- The service has read nothing more from the program. -/
structure SameReads (p p' : Peer Name Topic Msg) : Prop where
  name_eq : p'.name = p.name
  received_eq : p'.upstream.received = p.upstream.received

/-- A change of a program from which the service reads nothing. A connection that is given up is told so. -/
structure Follows (p p' : Peer Name Topic Msg) : Prop extends SameReads p p' where
  connected_of : p'.connected → p.connected
  sent_eq : p.connected = false → p'.downstream.sent = p.downstream.sent
  told : p.connected → p'.connected = false → ∃ msg ∈ p'.downstream.sent, ends msg

variable {ends} {p : Peer Name Topic Msg}

lemma Follows.refl (p : Peer Name Topic Msg) : p.Follows ends p :=
  ⟨⟨rfl,rfl⟩,id,fun _ => rfl,fun h h' => absurd (h.symm.trans h') (by simp)⟩

section Follows
variable (p)

lemma follows_request [DecidableEq Topic] (r : Request Topic) : p.Follows ends (p.request r) := by
  rw [Peer.request]
  split_ifs
  · exact ⟨⟨rfl,rfl⟩,id,fun _ => rfl,fun h h' => absurd (h.symm.trans h') (by simp)⟩
  · exact .refl p

lemma follows_deliver : p.Follows ends (p.deliver ends) := by
  rw [Peer.deliver]
  split_ifs
  · split
    · exact .refl p
    · exact ⟨⟨rfl,rfl⟩,id,fun _ => Channel.take_sent,fun h h' => absurd (h.symm.trans h') (by simp)⟩
  · exact .refl p

lemma follows_offer (topics : Name → Finset Topic) (msg : Msg) (accepts : Topic → Bool) :
    p.Follows ends (p.offer topics msg accepts) := by
  rw [Peer.offer]
  split_ifs with hwants
  · exact ⟨⟨rfl,rfl⟩,id,fun h => absurd hwants.1 (by simp [h]),fun h h' => absurd (h.symm.trans h') (by simp)⟩
  · exact .refl p

lemma follows_dismiss {closing : Msg} (hclosing : ends closing = true) : p.Follows ends (p.dismiss closing) := by
  rw [Peer.dismiss]
  split_ifs with hconnected
  · refine ⟨⟨rfl,rfl⟩,fun h => absurd h (by simp),fun h => absurd hconnected (by simp [h]),fun _ _ => ?_⟩
    exact ⟨closing,by simp [tell],hclosing⟩
  · exact .refl p

end Follows

namespace Sound
variable (h : p.Sound ends)
include h

omit h in
/-- Before the last message nothing ends a program. -/
lemma not_ends_of_told {msg msg' : Msg} (hserved : ∀ m ∈ p.downstream.sent, ends m = false)
    (hmsg : msg ∈ (p.downstream.push msg').sent.dropLast) : ends msg = false := by
  rw [Channel.push_sent,List.dropLast_concat] at hmsg
  exact hserved msg hmsg

lemma tell {msg : Msg} (hserved : ∀ m ∈ p.downstream.sent, ends m = false) (hopen : p.connected → ends msg = false) :
    (p.tell msg).Sound ends where
  closing_last := h.closing_last
  closing_of_running := h.closing_of_running
  unread := h.unread
  ending_last := not_ends_of_told hserved
  served hc hm := by
    change _ ∈ (p.downstream.push msg).sent at hm
    rw [Channel.push_sent,List.mem_append,List.mem_singleton] at hm
    rcases hm with hm | rfl
    · exact hserved _ hm
    · exact hopen hc
  alive := h.alive
  ended := h.ended

lemma offer {topics : Name → Finset Topic} {msg : Msg} {accepts : Topic → Bool} (hmsg : ends msg = false) :
    (p.offer topics msg accepts).Sound ends := by
  rw [Peer.offer]
  split_ifs with hwants
  · exact h.tell (fun m hm => h.served hwants.1 hm) fun _ => hmsg
  · exact h

lemma dismiss {closing : Msg} : (p.dismiss closing).Sound ends := by
  rw [Peer.dismiss]
  split_ifs with hc
  · exact ⟨h.closing_last,h.closing_of_running,fun h' => absurd h' (by simp),
      not_ends_of_told fun m hm => h.served hc hm,fun h' => absurd h' (by simp),h.alive,h.ended⟩
  · exact h

variable [DecidableEq Topic]

lemma request {r : Request Topic} : (p.request r).Sound ends := by
  rw [Peer.request]
  split_ifs with hrun
  · have hclosing := h.closing_of_running hrun
    refine ⟨?_,fun hr hm => ?_,h.unread,h.ending_last,h.served,fun _ => h.alive hrun,fun hr => .inl ?_⟩
    · change _ ∉ (p.upstream.push r).sent.dropLast
      rwa [Channel.push_sent,List.dropLast_concat]
    · change _ ∈ (p.upstream.push r).sent at hm
      rw [Channel.push_sent,List.mem_append,List.mem_singleton] at hm
      rcases hm with hm | rfl
      · exact hclosing hm
      · simp at hr
    · change _ ∈ (p.upstream.push r).sent
      have hr' : r = .close := by simpa using hr
      simp [hr']
  · exact h

lemma serve {r : Request Topic} {rest : List (Request Topic)} (hpending : p.upstream.pending = r :: rest)
    (hconnected : p.connected) : (p.serve r).Sound ends := by
  have hserve : p.serve r = { p with upstream := ⟨p.upstream.received ++ [r],rest⟩, connected := r ≠ .close } := by
    rw [Peer.serve,Channel.take_cons hpending]
  have hsent : (p.serve r).upstream.sent = p.upstream.sent := Channel.take_sent
  refine ⟨?_,?_,fun hr hm => ?_,h.ending_last,fun hr => h.served hconnected,h.alive,fun hr => ?_⟩
  · rw [hsent]
    exact h.closing_last
  · rw [hsent]
    exact h.closing_of_running
  · rw [hserve] at hr hm
    rcases List.mem_append.mp hm with hm | hm
    · exact h.unread hconnected hm
    · rw [← List.mem_singleton.mp hm] at hr
      simp at hr
  · rw [hsent]
    exact h.ended hr

omit [DecidableEq Topic] in
lemma deliver : (p.deliver ends).Sound ends := by
  rw [Peer.deliver]
  split_ifs with hrun
  · cases hpending : p.downstream.pending with
    | nil => exact h
    | cons msg rest =>
      have hsent : p.downstream.take.sent = p.downstream.sent := Channel.take_sent
      have hreceived : p.downstream.take.received = p.downstream.received ++ [msg] := by
        rw [Channel.take_cons hpending]
      refine ⟨h.closing_last,fun _ => h.closing_of_running hrun,h.unread,?_,?_,fun hr hm => ?_,fun hr => .inr ?_⟩
      · intro m hm
        change m ∈ p.downstream.take.sent.dropLast at hm
        rw [hsent] at hm
        exact h.ending_last hm
      · intro m hc hm
        change m ∈ p.downstream.take.sent at hm
        rw [hsent] at hm
        exact h.served hc hm
      · change _ ∈ p.downstream.take.received at hm
        rw [hreceived,List.mem_append,List.mem_singleton] at hm
        rcases hm with hm | rfl
        · exact h.alive hrun hm
        · simpa using hr
      · refine ⟨msg,?_,by simpa using hr⟩
        change _ ∈ p.downstream.take.received
        simp [hreceived]
  · exact h

end Sound

end Peer

end Broker
