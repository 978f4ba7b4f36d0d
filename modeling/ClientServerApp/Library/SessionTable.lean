import Mathlib.Data.Finset.Basic
import Mathlib.Data.Set.Finite.Basic

/-! The session table of a publish-subscribe service: every client that ever connected keeps its
topics, and holds a connection or none. -/
namespace SessionTable

variable {Id Fd Pattern : Type}

/-- One client: its connection, if it has one, and the patterns it subscribed to. -/
@[ext] structure Session (Fd Pattern : Type) where
  fd : Option Fd
  topics : Finset Pattern

/-- The finite map from clients to their sessions. -/
@[ext] structure Table (Id Fd Pattern : Type) where
  session : Id → Option (Session Fd Pattern)
  finite : {id | (session id).isSome}.Finite

/-- What the clients do. Apart from its first message, a client is known by its connection. -/
inductive Event (Id Fd Pattern : Type)
  | connect (id : Id) (fd : Fd)
  | subscribe (fd : Fd) (p : Pattern)
  | unsubscribe (fd : Fd) (p : Pattern)
  | close (fd : Fd)
  | idle

namespace Table
variable (T : Table Id Fd Pattern)

def empty : Table Id Fd Pattern where
  session := fun _ => none
  finite := by simp

/-- The client holds the connection. -/
def Holds (id : Id) (fd : Fd) : Prop := ∃ s, T.session id = some s ∧ s.fd = some fd

/-- No connection is held by two clients. -/
def Exclusive : Prop := ∀ id id' fd, T.Holds id fd → T.Holds id' fd → id = id'

/-- The client holds the connection and one of its patterns accepts. -/
def Receives (accepts : Pattern → Prop) (id : Id) (fd : Fd) : Prop :=
  ∃ s, T.session id = some s ∧ s.fd = some fd ∧ ∃ p ∈ s.topics, accepts p

variable {T}

/-- A client holds at most one connection. -/
theorem Holds.unique {id : Id} {fd fd' : Fd} (h : T.Holds id fd) (h' : T.Holds id fd') : fd = fd' := by
  obtain ⟨s,hs,hfd⟩ := h
  obtain ⟨s',hs',hfd'⟩ := h'
  cases hs.symm.trans hs'
  exact Option.some_injective _ (hfd.symm.trans hfd')

section Set
variable [DecidableEq Id] (T)

/-- The session of one client replaced. -/
def set (id : Id) (s : Session Fd Pattern) : Table Id Fd Pattern where
  session := Function.update T.session id (some s)
  finite := by
    refine (T.finite.insert id).subset fun i hi => ?_
    by_cases h : i = id
    · exact .inl h
    · exact .inr (by simpa [h] using hi)

theorem set_session (id i : Id) (s : Session Fd Pattern) :
    (T.set id s).session i = if i = id then some s else T.session i := by
  by_cases h : i = id <;> simp [set,h]

end Set

section OnHolder
variable [DecidableEq Fd] (T)

/-- The session of the client that holds the connection changed. -/
def onHolder (fd : Fd) (f : Session Fd Pattern → Session Fd Pattern) : Table Id Fd Pattern where
  session := fun id => (T.session id).map fun s => if s.fd = some fd then f s else s
  finite := by simpa using T.finite

theorem onHolder_session (fd : Fd) (f : Session Fd Pattern → Session Fd Pattern) (id : Id) :
    (T.onHolder fd f).session id = (T.session id).map fun s => if s.fd = some fd then f s else s := rfl

theorem onHolder_of_not_holds {fd : Fd} {f : Session Fd Pattern → Session Fd Pattern} {id : Id}
    (h : ¬ T.Holds id fd) : (T.onHolder fd f).session id = T.session id := by
  rw [onHolder_session]
  cases hs : T.session id with
  | none => rfl
  | some s =>
    have hfd : s.fd ≠ some fd := fun hfd => h ⟨s,hs,hfd⟩
    simp [hfd]

/-- Without sharing, only the session of the holder changes. -/
theorem onHolder_of_session {T : Table Id Fd Pattern} [DecidableEq Id] (hT : T.Exclusive) {id : Id}
    {s : Session Fd Pattern} {fd : Fd} (hs : T.session id = some s) (hfd : s.fd = some fd)
    (f : Session Fd Pattern → Session Fd Pattern) (i : Id) :
    (T.onHolder fd f).session i = if i = id then some (f s) else T.session i := by
  by_cases hi : i = id
  · rw [if_pos hi,hi,onHolder_session,hs,Option.map_some,if_pos hfd]
  · rw [if_neg hi]
    exact T.onHolder_of_not_holds fun h => hi (hT i id fd h ⟨s,hs,hfd⟩)

end OnHolder

variable [DecidableEq Id] [DecidableEq Fd] [DecidableEq Pattern]

/-- The table after one event. A client that holds a connection cannot open a second one. -/
def next (T : Table Id Fd Pattern) : Event Id Fd Pattern → Table Id Fd Pattern
  | .connect id fd =>
    match T.session id with
    | none => T.set id ⟨some fd,∅⟩
    | some s => if s.fd = none then T.set id { s with fd := some fd } else T
  | .subscribe fd p => T.onHolder fd fun s => { s with topics := insert p s.topics }
  | .unsubscribe fd p => T.onHolder fd fun s => { s with topics := s.topics.erase p }
  | .close fd => T.onHolder fd fun s => { s with fd := none }
  | .idle => T

/-- The table after a history of events. -/
def after (events : List (Event Id Fd Pattern)) : Table Id Fd Pattern := events.foldl next empty

/-- A client that holds no connection gets the new one and keeps its topics. -/
theorem next_connect_free {id : Id} (h : ∀ g, ¬ T.Holds id g) (fd : Fd) (i : Id) :
    (T.next (.connect id fd)).session i =
    if i = id then some ⟨some fd,(T.session id).elim ∅ Session.topics⟩ else T.session i := by
  simp only [next]
  cases hs : T.session id with
  | none => exact T.set_session id i _
  | some s =>
    have hfd : s.fd = none := Option.eq_none_iff_forall_not_mem.mpr fun g hg => h g ⟨s,hs,hg⟩
    simp only [if_pos hfd]
    exact T.set_session id i _

/-- One that holds a connection gets no other. -/
theorem next_connect_held {id : Id} {g : Fd} (h : T.Holds id g) (fd : Fd) : T.next (.connect id fd) = T := by
  obtain ⟨s,hs,hg⟩ := h
  simp only [next,hs,if_neg (show s.fd ≠ none by simp [hg])]

/-- The client that an event comes from. -/
def Sender (T : Table Id Fd Pattern) (id : Id) : Event Id Fd Pattern → Prop
  | .connect i _ => i = id
  | .subscribe fd _ => T.Holds id fd
  | .unsubscribe fd _ => T.Holds id fd
  | .close fd => T.Holds id fd
  | .idle => False

/-- An event changes the session of its sender only. -/
theorem next_of_not_sender {e : Event Id Fd Pattern} {id : Id} (h : ¬ T.Sender id e) :
    (T.next e).session id = T.session id := by
  cases e with
  | connect i fd =>
    have hne : id ≠ i := fun he => h he.symm
    simp only [next]
    cases hs : T.session i with
    | none => simp only [set_session,if_neg hne]
    | some s =>
      by_cases hfd : s.fd = none
      · simp only [if_pos hfd,set_session,if_neg hne]
      · simp only [if_neg hfd]
  | subscribe fd p => exact T.onHolder_of_not_holds h
  | unsubscribe fd p => exact T.onHolder_of_not_holds h
  | close fd => exact T.onHolder_of_not_holds h
  | idle => rfl

/-- After an event a client holds the connection it held before or the one it just opened. -/
theorem holds_of_next {e : Event Id Fd Pattern} {id : Id} {fd : Fd} (h : (T.next e).Holds id fd) :
    T.Holds id fd ∨ e = .connect id fd := by
  obtain ⟨s',hs',hfd'⟩ := h
  -- the holder of a connection keeps it unless it closes it
  have hkeep : ∀ (fd₀ : Fd) (f : Session Fd Pattern → Session Fd Pattern),
      (T.onHolder fd₀ f).session id = some s' → (∀ s, (f s).fd = some fd → s.fd = some fd) →
        T.Holds id fd := by
    intro fd₀ f hs hf
    rw [onHolder_session,Option.map_eq_some_iff] at hs
    obtain ⟨s,hs,rfl⟩ := hs
    refine ⟨s,hs,?_⟩
    by_cases hh : s.fd = some fd₀
    · rw [if_pos hh] at hfd'
      exact hf s hfd'
    · rwa [if_neg hh] at hfd'
  cases e with
  | connect i fd₀ =>
    by_cases hi : id = i
    · subst hi
      cases hs : T.session id with
      | none =>
        simp only [next,hs,set_session,if_pos] at hs'
        cases hs'
        exact .inr (by rw [Option.some_injective _ hfd'])
      | some s =>
        by_cases hfd : s.fd = none
        · simp only [next,hs,if_pos hfd,set_session,if_pos] at hs'
          cases hs'
          exact .inr (by rw [Option.some_injective _ hfd'])
        · simp only [next,hs,if_neg hfd] at hs'
          exact .inl ⟨s',hs'.symm ▸ hs,hfd'⟩
    · have hframe : (T.next (.connect i fd₀)).session id = T.session id :=
        next_of_not_sender fun he => hi he.symm
      exact .inl ⟨s',hframe.symm.trans hs',hfd'⟩
  | subscribe fd₀ p => exact .inl (hkeep fd₀ _ hs' (fun s hs => hs))
  | unsubscribe fd₀ p => exact .inl (hkeep fd₀ _ hs' (fun s hs => hs))
  | close fd₀ => exact .inl (hkeep fd₀ _ hs' (fun s hs => by simp at hs))
  | idle => exact .inl ⟨s',hs',hfd'⟩

/-- Connections stay exclusive when a new one is held by nobody. -/
theorem Exclusive.next (hT : T.Exclusive) {e : Event Id Fd Pattern}
    (hnew : ∀ id fd, e = .connect id fd → ∀ i, ¬ T.Holds i fd) : (T.next e).Exclusive := by
  intro id id' fd h h'
  rcases holds_of_next h with h | h <;> rcases holds_of_next h' with h' | h'
  · exact hT id id' fd h h'
  · exact absurd h (hnew id' fd h' id)
  · exact absurd h' (hnew id fd h id')
  · cases h.symm.trans h'
    rfl

/-- Only a connection makes a client known. -/
theorem session_eq_none_of_next {e : Event Id Fd Pattern} {id : Id} (h : T.session id = none)
    (hconnect : ∀ fd, e ≠ .connect id fd) : (T.next e).session id = none := by
  rw [next_of_not_sender,h]
  cases e with
  | connect i fd =>
    rintro rfl
    exact hconnect fd rfl
  | subscribe fd p => exact fun ⟨s,hs,_⟩ => nomatch hs.symm.trans h
  | unsubscribe fd p => exact fun ⟨s,hs,_⟩ => nomatch hs.symm.trans h
  | close fd => exact fun ⟨s,hs,_⟩ => nomatch hs.symm.trans h
  | idle => exact not_false

theorem foldl_session_eq_none {events : List (Event Id Fd Pattern)} {id : Id} (h : T.session id = none)
    (hconnect : ∀ e ∈ events, ∀ fd, e ≠ .connect id fd) : (events.foldl next T).session id = none := by
  induction events generalizing T with
  | nil => exact h
  | cons e events ih =>
    exact ih (session_eq_none_of_next h (hconnect e List.mem_cons_self))
      fun e' he' => hconnect e' (List.mem_cons_of_mem _ he')

/-- The topics of the holder after it subscribed to some more. -/
theorem foldl_subscribe {id : Id} {fd : Fd} {s : Session Fd Pattern} (hs : T.session id = some s)
    (hfd : s.fd = some fd) (ps : List Pattern) : ∃ s', ((ps.map (.subscribe fd)).foldl next T).session id = some s' ∧
      s'.fd = some fd ∧ ∀ p, p ∈ s'.topics ↔ p ∈ ps ∨ p ∈ s.topics := by
  induction ps generalizing T s with
  | nil => exact ⟨s,hs,hfd,by simp⟩
  | cons q ps ih =>
    have hnext : (T.next (.subscribe fd q)).session id = some { s with topics := insert q s.topics } := by
      rw [next,onHolder_session,hs,Option.map_some,if_pos hfd]
    obtain ⟨s',hs',hfd',htopics⟩ := ih hnext hfd
    refine ⟨s',hs',hfd',fun p => ?_⟩
    rw [htopics]
    simp only [Finset.mem_insert,List.mem_cons]
    tauto

end Table

end SessionTable
