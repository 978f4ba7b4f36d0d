import ClientServerApp.Server.State
import ClientServerApp.Trie.History
import ClientServerApp.Library.SessionTable

/-! What the structures of the server record about the clients, apart from how they store it: the
memory blocks, the monitored descriptors and the answers of both tables. -/
namespace ClientServerApp.Server
open SessionTable

/-- A trie as `add_new_sub` creates it and the messages of a client change it. -/
structure SubscriptionTrie (trie : Trie topicAlphabet.length) : Prop where
  valid : trie.Valid
  dataSize : trie.info.dataSize = 1

structure Registry where
  heap : List Sub
  watched : List Int32
  byFd : Int32 → Option Ptr
  byId : List UInt8 → Option Ptr

namespace Registry
variable (r : Registry)

/-- The three views agree: the monitored descriptors and both tables name the same blocks. -/
structure Coherent : Prop where
  nodup : r.watched.Nodup
  watched_iff (fd : Int32) : fd ∈ r.watched ↔ (r.byFd fd).isSome
  byFd_iff (fd : Int32) (p : Ptr) :
    r.byFd fd = some p ↔ fd ≠ -1 ∧ ∃ sub, r.heap[p]? = some sub ∧ sub.sockFd = fd
  byId_iff (id : List UInt8) (p : Ptr) : r.byId id = some p ↔ ∃ sub, r.heap[p]? = some sub ∧ sub.id = id
  trie {sub : Sub} : sub ∈ r.heap → SubscriptionTrie sub.subscriptions

/-- A client that connects for the first time. -/
def add (sub : Sub) : Registry where
  heap := r.heap ++ [sub]
  watched := r.watched ++ [sub.sockFd]
  byFd := Function.update r.byFd sub.sockFd (some r.heap.length)
  byId := Function.update r.byId sub.id (some r.heap.length)

/-- A client that connects again. -/
def revive (p : Ptr) (sub : Sub) (fd : Int32) : Registry where
  heap := r.heap.set p { sub with sockFd := fd }
  watched := r.watched ++ [fd]
  byFd := Function.update r.byFd fd (some p)
  byId := r.byId

/-- A client that closes its connection. -/
def disconnect (p : Ptr) (sub : Sub) : Registry where
  heap := r.heap.set p { sub with sockFd := -1 }
  watched := r.watched.erase sub.sockFd
  byFd := Function.update r.byFd sub.sockFd none
  byId := r.byId

/-- A client whose subscriptions change. -/
def resubscribe (p : Ptr) (sub : Sub) (subscriptions : Trie topicAlphabet.length) : Registry :=
  { r with heap := r.heap.set p { sub with subscriptions := subscriptions } }

/-- The block that belongs to an id. -/
def client (id : List UInt8) : Option Sub := (r.byId id).bind fun p => r.heap[p]?

end Registry

lemma getElem?_set_of_some {α : Type} {l : List α} {p : ℕ} {x : α} (hp : l[p]? = some x) (y : α) (q : ℕ) :
    (l.set p y)[q]? = if q = p then some y else l[q]? := by
  have hlt : p < l.length := (List.getElem?_eq_some_iff.mp hp).1
  by_cases h : q = p
  · simp [h,hlt]
  · rw [if_neg h,List.getElem?_set_ne (Ne.symm h)]

lemma getElem?_concat {α : Type} (l : List α) (x : α) (q : ℕ) :
    (l ++ [x])[q]? = if q = l.length then some x else l[q]? := by
  by_cases h : q = l.length
  · simp [h]
  · rw [if_neg h]
    by_cases hlt : q < l.length
    · exact List.getElem?_append_left hlt
    · rw [List.getElem?_eq_none (by simp; omega),List.getElem?_eq_none (by omega)]

section Index
variable {κ : Type} [DecidableEq κ] {table : κ → Option Ptr} {heap : List Sub} {belongs : κ → Sub → Prop}
  (hindex : ∀ k p, table k = some p ↔ ∃ sub, heap[p]? = some sub ∧ belongs k sub)
include hindex

/-- A table that names the block of every key still does so when a block with a free key is added. -/
lemma index_concat {sub : Sub} {key : κ} (hkey : ∀ k, belongs k sub ↔ k = key) (hfree : table key = none)
    (k : κ) (p : Ptr) : Function.update table key (some heap.length) k = some p ↔
      ∃ s, (heap ++ [sub])[p]? = some s ∧ belongs k s := by
  rw [Function.update_apply,getElem?_concat]
  by_cases hp : p = heap.length
  · subst hp
    by_cases hk : k = key
    · simp [hk,hkey]
    · have hne : table k ≠ some heap.length := by
        intro hq
        obtain ⟨s,hs,-⟩ := (hindex k _).mp hq
        simp at hs
      simp [hk,hkey,hne]
  · rw [if_neg hp,← hindex]
    by_cases hk : k = key
    · simp [hk,hfree,Ne.symm hp]
    · rw [if_neg hk]

/-- The same when one block is replaced, and its key gets or loses its entry. -/
lemma index_set {p : Ptr} {sub : Sub} (hp : heap[p]? = some sub) (sub' : Sub) {key : κ} {entry : Option Ptr}
    (hother : ∀ k, k ≠ key → (belongs k sub' ↔ belongs k sub)) (hentry : entry = some p ↔ belongs key sub')
    (honly : ∀ q, q ≠ p → (entry = some q ↔ table key = some q)) (k : κ) (q : Ptr) :
    Function.update table key entry k = some q ↔ ∃ s, (heap.set p sub')[q]? = some s ∧ belongs k s := by
  rw [Function.update_apply,getElem?_set_of_some hp]
  by_cases hq : q = p
  · subst hq
    by_cases hk : k = key
    · simp [hk,hentry]
    · rw [if_neg hk,hindex]
      simp [hp,hother k hk]
  · rw [if_neg hq,← hindex]
    by_cases hk : k = key
    · rw [if_pos hk,hk]
      exact honly q hq
    · rw [if_neg hk]

end Index

/-- The client is connected on the descriptor. -/
def Sub.ConnectedOn (fd : Int32) (sub : Sub) : Prop := fd ≠ -1 ∧ sub.sockFd = fd

lemma Sub.connectedOn_iff {sub : Sub} (hsock : sub.sockFd ≠ -1) (fd : Int32) :
    sub.ConnectedOn fd ↔ fd = sub.sockFd := by
  constructor
  · rintro ⟨-,rfl⟩
    rfl
  · rintro rfl
    exact ⟨hsock,rfl⟩

lemma exists_connectedOn_iff {heap : List Sub} {p : Ptr} {fd : Int32} :
    (∃ sub, heap[p]? = some sub ∧ sub.ConnectedOn fd) ↔ fd ≠ -1 ∧ ∃ sub, heap[p]? = some sub ∧ sub.sockFd = fd := by
  simp only [Sub.ConnectedOn,and_left_comm,exists_and_left]

namespace Registry.Coherent
variable {r : Registry} (h : r.Coherent)
include h

lemma byFd_index (fd : Int32) (p : Ptr) :
    r.byFd fd = some p ↔ ∃ sub, r.heap[p]? = some sub ∧ sub.ConnectedOn fd :=
  (h.byFd_iff fd p).trans exists_connectedOn_iff.symm

lemma byFd_eq_none {fd : Int32} (hfd : fd ∉ r.watched) : r.byFd fd = none := by
  rw [h.watched_iff] at hfd
  simpa using hfd

lemma byFd_of_mem {fd : Int32} (hfd : fd ∈ r.watched) :
    ∃ p sub, r.byFd fd = some p ∧ r.heap[p]? = some sub ∧ sub.sockFd = fd ∧ fd ≠ -1 := by
  obtain ⟨p,hp⟩ := Option.isSome_iff_exists.mp ((h.watched_iff fd).mp hfd)
  obtain ⟨hne,sub,hsub,hsock⟩ := (h.byFd_iff fd p).mp hp
  exact ⟨p,sub,hp,hsub,hsock,hne⟩

lemma mem_of_getElem? {p : Ptr} {sub : Sub} (hp : r.heap[p]? = some sub) (hsock : sub.sockFd ≠ -1) :
    sub.sockFd ∈ r.watched := by
  rw [h.watched_iff,(h.byFd_iff _ p).mpr ⟨hsock,sub,hp,rfl⟩]
  rfl

lemma byId_of_getElem? {p : Ptr} {sub : Sub} (hp : r.heap[p]? = some sub) : r.byId sub.id = some p :=
  (h.byId_iff _ p).mpr ⟨sub,hp,rfl⟩

lemma client_of_getElem? {p : Ptr} {sub : Sub} (hp : r.heap[p]? = some sub) : r.client sub.id = some sub := by
  rw [client,h.byId_of_getElem? hp]
  exact hp

/-- The block of an id is found under that id. -/
lemma getElem?_of_client {id : List UInt8} {sub : Sub} (hsub : r.client id = some sub) :
    ∃ p, r.byId id = some p ∧ r.heap[p]? = some sub ∧ sub.id = id := by
  obtain ⟨p,hp,hget⟩ := Option.bind_eq_some_iff.mp hsub
  obtain ⟨sub',hsub',hid⟩ := (h.byId_iff id p).mp hp
  cases hget.symm.trans hsub'
  exact ⟨p,hp,hget,hid⟩

/-- A descriptor that is not monitored yet can be added. -/
lemma nodup_concat {fd : Int32} (hfd : fd ∉ r.watched) : (r.watched ++ [fd]).Nodup := by
  refine List.nodup_append.mpr ⟨h.nodup,List.nodup_singleton _,?_⟩
  intro a ha b hb hab
  rw [List.mem_singleton.mp hb] at hab
  exact hfd (hab ▸ ha)

lemma mem_concat_iff (fd : Int32) (p : Ptr) (g : Int32) :
    g ∈ r.watched ++ [fd] ↔ (Function.update r.byFd fd (some p) g).isSome := by
  rw [Function.update_apply]
  by_cases he : g = fd
  · simp [he]
  · simp [he,h.watched_iff]

lemma trie_set {p : Ptr} (sub' : Sub) {s : Sub} (htrie : SubscriptionTrie sub'.subscriptions)
    (hs : s ∈ r.heap.set p sub') : SubscriptionTrie s.subscriptions := by
  rcases List.mem_or_eq_of_mem_set hs with hs | rfl
  · exact h.trie hs
  · exact htrie

section Set
variable {p : Ptr} {sub : Sub} (hp : r.heap[p]? = some sub) (sub' : Sub)
include hp

/-- Replacing a block by one with the same id leaves the table of the ids right. -/
lemma byId_iff_set (hid : sub'.id = sub.id) (id : List UInt8) (q : Ptr) :
    r.byId id = some q ↔ ∃ s, (r.heap.set p sub')[q]? = some s ∧ s.id = id := by
  rw [h.byId_iff,getElem?_set_of_some hp]
  by_cases hq : q = p
  · subst hq
    simp [hp,hid]
  · simp [hq]

lemma client_set (r' : Registry) (hheap : r'.heap = r.heap.set p sub') (hbyId : r'.byId = r.byId)
    (id : List UInt8) : r'.client id = if id = sub.id then some sub' else r.client id := by
  have hclient : r'.client id = (r.byId id).bind fun q => if q = p then some sub' else r.heap[q]? := by
    simp only [client,hheap,hbyId,getElem?_set_of_some hp]
  rw [hclient]
  by_cases hi : id = sub.id
  · rw [if_pos hi,hi,h.byId_of_getElem? hp,Option.bind_some,if_pos rfl]
  · rw [if_neg hi,client]
    cases hq : r.byId id with
    | none => rfl
    | some q =>
      obtain ⟨s,hs,hsid⟩ := (h.byId_iff id q).mp hq
      have hne : q ≠ p := by
        intro he
        subst he
        cases hp.symm.trans hs
        exact hi hsid.symm
      rw [Option.bind_some,if_neg hne]
      rfl

end Set

/-- A new client keeps the views in agreement. -/
theorem add {sub : Sub} (hsock : sub.sockFd ≠ -1) (hfd : sub.sockFd ∉ r.watched)
    (hid : r.byId sub.id = none) (htrie : SubscriptionTrie sub.subscriptions) : (r.add sub).Coherent where
  nodup := h.nodup_concat hfd
  watched_iff := h.mem_concat_iff _ _
  byFd_iff fd p := (index_concat h.byFd_index (sub.connectedOn_iff hsock) (h.byFd_eq_none hfd) fd p).trans
    exists_connectedOn_iff
  byId_iff := index_concat h.byId_iff (fun _ => eq_comm) hid
  trie := by
    intro s hs
    rcases List.mem_append.mp hs with hs | hs
    · exact h.trie hs
    · rwa [List.mem_singleton.mp hs]

lemma client_add (sub : Sub) (id : List UInt8) :
    (r.add sub).client id = if id = sub.id then some sub else r.client id := by
  change (Function.update r.byId sub.id _ id).bind (fun p => (r.heap ++ [sub])[p]?) = _
  rw [Function.update_apply]
  by_cases hi : id = sub.id
  · simp [hi]
  · rw [if_neg hi,if_neg hi,client]
    cases hq : r.byId id with
    | none => rfl
    | some q =>
      obtain ⟨s,hs,-⟩ := (h.byId_iff id q).mp hq
      have hlt : q < r.heap.length := (List.getElem?_eq_some_iff.mp hs).1
      rw [Option.bind_some,Option.bind_some,List.getElem?_append_left hlt]

/-- A client that connects again keeps the views in agreement. -/
theorem revive {p : Ptr} {sub : Sub} (hp : r.heap[p]? = some sub) (hold : sub.sockFd = -1) {fd : Int32}
    (hne : fd ≠ -1) (hfd : fd ∉ r.watched) : (r.revive p sub fd).Coherent where
  nodup := h.nodup_concat hfd
  watched_iff := h.mem_concat_iff _ _
  byFd_iff := by
    intro g q
    have hnew : ∀ k, ({ sub with sockFd := fd } : Sub).ConnectedOn k ↔ k = fd := Sub.connectedOn_iff hne
    have hoff : ∀ k, ¬ sub.ConnectedOn k := by
      rintro k ⟨hk,hsock⟩
      exact hk (hsock.symm.trans hold)
    refine (index_set h.byFd_index hp { sub with sockFd := fd } (fun k hk => ?_) ?_ (fun q hq => ?_) g q).trans
      exists_connectedOn_iff
    · exact iff_of_false (fun hk' => hk ((hnew k).mp hk')) (hoff k)
    · exact iff_of_true rfl ((hnew fd).mpr rfl)
    · rw [h.byFd_eq_none hfd]
      simp [Ne.symm hq]
  byId_iff := h.byId_iff_set hp _ rfl
  trie := by
    intro s hs
    have htrie := h.trie (List.mem_of_getElem? hp)
    exact h.trie_set { sub with sockFd := fd } htrie hs

/-- A client that closes its connection keeps the views in agreement. -/
theorem disconnect {p : Ptr} {sub : Sub} (hp : r.heap[p]? = some sub) (hsock : sub.sockFd ≠ -1) :
    (r.disconnect p sub).Coherent where
  nodup := h.nodup.erase _
  watched_iff := by
    intro g
    change g ∈ r.watched.erase sub.sockFd ↔ (Function.update r.byFd sub.sockFd none g).isSome
    rw [Function.update_apply,h.nodup.mem_erase_iff,h.watched_iff]
    by_cases he : g = sub.sockFd <;> simp [he]
  byFd_iff := by
    intro g q
    have hold : ∀ k, sub.ConnectedOn k ↔ k = sub.sockFd := sub.connectedOn_iff hsock
    have hoff : ∀ k, ¬ ({ sub with sockFd := -1 } : Sub).ConnectedOn k := by
      rintro k ⟨hk,hk'⟩
      exact hk hk'.symm
    refine (index_set h.byFd_index hp { sub with sockFd := -1 } (fun k hk => ?_) ?_ (fun q hq => ?_) g q).trans
      exists_connectedOn_iff
    · exact iff_of_false (hoff k) fun hk' => hk ((hold k).mp hk')
    · exact iff_of_false (by simp) (hoff sub.sockFd)
    · rw [(h.byFd_index _ p).mpr ⟨sub,hp,(hold _).mpr rfl⟩]
      simp [Ne.symm hq]
  byId_iff := h.byId_iff_set hp _ rfl
  trie := by
    intro s hs
    have htrie := h.trie (List.mem_of_getElem? hp)
    exact h.trie_set { sub with sockFd := -1 } htrie hs

/-- A client whose subscriptions change keeps the views in agreement. -/
theorem resubscribe {p : Ptr} {sub : Sub} (hp : r.heap[p]? = some sub)
    {subscriptions : Trie topicAlphabet.length} (htrie : SubscriptionTrie subscriptions) :
    (r.resubscribe p sub subscriptions).Coherent where
  nodup := h.nodup
  watched_iff := h.watched_iff
  byFd_iff := by
    intro g q
    change r.byFd g = _ ↔ _ ∧ ∃ s, (r.heap.set p _)[q]? = some s ∧ _
    rw [getElem?_set_of_some hp,h.byFd_iff]
    by_cases hq : q = p
    · subst hq
      simp [hp]
    · simp [hq]
  byId_iff := h.byId_iff_set hp _ rfl
  trie := fun hs => h.trie_set { sub with subscriptions := subscriptions } htrie hs

end Registry.Coherent

/-- The block and the session say the same about a client. -/
structure IsSession (sub : Sub) (s : Session Int32 (List UInt8)) : Prop where
  fd_eq : s.fd = if sub.sockFd = -1 then none else some sub.sockFd
  topics_iff (key : List UInt8) : key ∈ s.topics ↔ sub.subscriptions.Holds key

/-- The registry says the same about every client as the session table. -/
def Registry.Represents (r : Registry) (T : Table (List UInt8) Int32 (List UInt8)) : Prop :=
  ∀ id, Option.Rel IsSession (r.client id) (T.session id)

lemma IsSession.fd_iff {sub : Sub} {s : Session Int32 (List UInt8)} (h : IsSession sub s) (fd : Int32) :
    s.fd = some fd ↔ fd ≠ -1 ∧ sub.sockFd = fd := by
  rw [h.fd_eq]
  by_cases hsock : sub.sockFd = -1
  · rw [if_pos hsock,hsock]
    constructor
    · intro hfd
      cases hfd
    · rintro ⟨hne,rfl⟩
      exact absurd rfl hne
  · rw [if_neg hsock,Option.some.injEq]
    constructor
    · rintro rfl
      exact ⟨hsock,rfl⟩
    · exact And.right

namespace Registry.Represents
variable {r : Registry} {T : Table (List UInt8) Int32 (List UInt8)} (h : r.Represents T)
include h

lemma session_none {id : List UInt8} (hc : r.client id = none) : T.session id = none := by
  have hid := h id
  rw [hc] at hid
  cases hs : T.session id with
  | none => rfl
  | some s =>
    rw [hs] at hid
    cases hid

lemma session_some {id : List UInt8} {sub : Sub} (hc : r.client id = some sub) :
    ∃ s, T.session id = some s ∧ IsSession sub s := by
  have hid := h id
  rw [hc] at hid
  cases hs : T.session id with
  | none =>
    rw [hs] at hid
    cases hid
  | some s =>
    rw [hs] at hid
    cases hid with
    | some hsession => exact ⟨s,rfl,hsession⟩

lemma client_some {id : List UInt8} {s : Session Int32 (List UInt8)} (hs : T.session id = some s) :
    ∃ sub, r.client id = some sub ∧ IsSession sub s := by
  cases hc : r.client id with
  | none =>
    rw [h.session_none hc] at hs
    cases hs
  | some sub =>
    obtain ⟨s',hs',hsession⟩ := h.session_some hc
    cases hs.symm.trans hs'
    exact ⟨sub,rfl,hsession⟩

/-- The holder of a connection is the client whose block the table of descriptors names. -/
lemma holds_iff (hr : r.Coherent) (id : List UInt8) (fd : Int32) :
    T.Holds id fd ↔ ∃ p sub, r.byFd fd = some p ∧ r.heap[p]? = some sub ∧ sub.id = id := by
  constructor
  · rintro ⟨s,hs,hfd⟩
    obtain ⟨sub,hc,hsession⟩ := h.client_some hs
    obtain ⟨p,-,hp,hid⟩ := hr.getElem?_of_client hc
    exact ⟨p,sub,(hr.byFd_iff fd p).mpr ⟨((hsession.fd_iff fd).mp hfd).1,sub,hp,((hsession.fd_iff fd).mp hfd).2⟩,
      hp,hid⟩
  · rintro ⟨p,sub,hfd,hp,rfl⟩
    obtain ⟨hne,sub',hp',hsock⟩ := (hr.byFd_iff fd p).mp hfd
    cases hp.symm.trans hp'
    obtain ⟨s,hs,hsession⟩ := h.session_some (hr.client_of_getElem? hp)
    exact ⟨s,hs,(hsession.fd_iff fd).mpr ⟨hne,hsock⟩⟩

lemma exclusive (hr : r.Coherent) : T.Exclusive := by
  intro id id' fd hid hid'
  obtain ⟨p,sub,hfd,hp,rfl⟩ := (h.holds_iff hr id fd).mp hid
  obtain ⟨p',sub',hfd',hp',rfl⟩ := (h.holds_iff hr id' fd).mp hid'
  cases hfd.symm.trans hfd'
  cases hp.symm.trans hp'
  rfl

/-- Both sides change the same client to the same session. -/
lemma change {r' : Registry} {T' : Table (List UInt8) Int32 (List UInt8)} (id : List UInt8) (sub : Sub)
    (s : Session Int32 (List UInt8)) (hsession : IsSession sub s)
    (hr' : ∀ i, r'.client i = if i = id then some sub else r.client i)
    (hT' : ∀ i, T'.session i = if i = id then some s else T.session i) : r'.Represents T' := by
  intro i
  rw [hr',hT']
  by_cases hi : i = id
  · rw [if_pos hi,if_pos hi]
    exact .some hsession
  · rw [if_neg hi,if_neg hi]
    exact h i

/-- The connection of an unknown id. -/
theorem add (hr : r.Coherent) {sub : Sub} (hsock : sub.sockFd ≠ -1) (hid : r.client sub.id = none)
    (htrie : ∀ key, ¬ sub.subscriptions.Holds key) :
    (r.add sub).Represents (T.next (.connect sub.id sub.sockFd)) := by
  refine h.change sub.id sub ⟨some sub.sockFd,∅⟩ ⟨?_,?_⟩ (hr.client_add sub) fun i => ?_
  · rw [if_neg hsock]
  · intro key
    simp [htrie key]
  · simp only [Table.next,h.session_none hid,Table.set_session]

/-- The connection of a known id without a connection. -/
theorem revive (hr : r.Coherent) {p : Ptr} {sub : Sub} (hp : r.heap[p]? = some sub) (hold : sub.sockFd = -1)
    {fd : Int32} (hne : fd ≠ -1) : (r.revive p sub fd).Represents (T.next (.connect sub.id fd)) := by
  obtain ⟨s,hs,hsession⟩ := h.session_some (hr.client_of_getElem? hp)
  have hfd : s.fd = none := by rw [hsession.fd_eq,if_pos hold]
  refine h.change sub.id { sub with sockFd := fd } { s with fd := some fd } ⟨?_,hsession.topics_iff⟩
    (hr.client_set hp _ _ rfl rfl) fun i => ?_
  · rw [if_neg hne]
  · simp only [Table.next,hs,if_pos hfd,Table.set_session]

/-- The connection of an id that holds one changes nothing. -/
theorem duplicate (hr : r.Coherent) {p : Ptr} {sub : Sub} (hp : r.heap[p]? = some sub)
    (hlive : sub.sockFd ≠ -1) (fd : Int32) : r.Represents (T.next (.connect sub.id fd)) := by
  obtain ⟨s,hs,hsession⟩ := h.session_some (hr.client_of_getElem? hp)
  have hfd : s.fd ≠ none := by simp [hsession.fd_eq,hlive]
  have hnext : T.next (.connect sub.id fd) = T := by simp only [Table.next,hs,if_neg hfd]
  rwa [hnext]

section Holder
variable (hr : r.Coherent) {p : Ptr} {sub : Sub} {fd : Int32} (hfd : r.byFd fd = some p)
  (hp : r.heap[p]? = some sub)
include hr hfd hp

/-- A change to the session of the holder of a connection. -/
lemma onHolder {r' : Registry} {sub' : Sub} {f : Session Int32 (List UInt8) → Session Int32 (List UInt8)}
    (hheap : r'.heap = r.heap.set p sub') (hbyId : r'.byId = r.byId)
    (hf : ∀ s, IsSession sub s → IsSession sub' (f s)) : r'.Represents (T.onHolder fd f) := by
  obtain ⟨hne,sub₀,hp₀,hsock⟩ := (hr.byFd_iff fd p).mp hfd
  cases hp.symm.trans hp₀
  obtain ⟨s,hs,hsession⟩ := h.session_some (hr.client_of_getElem? hp)
  exact h.change _ _ _ (hf s hsession) (hr.client_set hp _ r' hheap hbyId)
    (Table.onHolder_of_session (h.exclusive hr) hs ((hsession.fd_iff fd).mpr ⟨hne,hsock⟩) f)

theorem disconnect : (r.disconnect p sub).Represents (T.next (.close fd)) := by
  refine h.onHolder hr hfd hp rfl rfl fun s hs => ⟨?_,hs.topics_iff⟩
  rw [if_pos rfl]

variable {subscriptions : Trie topicAlphabet.length} {key : List UInt8}

theorem subscribe (hkeys : ∀ k, subscriptions.Holds k ↔ k = key ∨ sub.subscriptions.Holds k) :
    (r.resubscribe p sub subscriptions).Represents (T.next (.subscribe fd key)) := by
  refine h.onHolder hr hfd hp rfl rfl fun s hs => ⟨hs.fd_eq,fun k => ?_⟩
  rw [hkeys,Finset.mem_insert,hs.topics_iff]

theorem unsubscribe (hkeys : ∀ k, subscriptions.Holds k ↔ k ≠ key ∧ sub.subscriptions.Holds k) :
    (r.resubscribe p sub subscriptions).Represents (T.next (.unsubscribe fd key)) := by
  refine h.onHolder hr hfd hp rfl rfl fun s hs => ⟨hs.fd_eq,fun k => ?_⟩
  rw [hkeys,Finset.mem_erase,hs.topics_iff]

end Holder

end Registry.Represents

end ClientServerApp.Server
