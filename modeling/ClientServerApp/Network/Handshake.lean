import ClientServerApp.Network.Upstream

/-! A stream from a subscriber that is cut anywhere but between its messages: for some id and commands
the server then registers another id, or misses a subscription. -/
namespace ClientServerApp.Network
open Traced Runs Framing SessionTable
open Server (Srv baseFds)

section Server
variable {u w : Int32} {order : ByteOrder} {id topic : List UInt8} {srv srv' : Srv}

/-- The id is known, and no client is subscribed to the topic. -/
structure Lacks (u w : Int32) (id topic : List UInt8) (srv : Srv) : Prop where
  inv : ∃ t, Server.Inv u w t srv
  known : (srv.registry.byId id).isSome
  lacks {sub : Server.Sub} : sub ∈ srv.heap → ¬ sub.subscriptions.Holds topic

/-- A message in which the server does not find the topic, whatever else it is. -/
def Misses (order : ByteOrder) (topic : List UInt8) : Server.Event → Prop
  | .message _ i => ∃ got, i.received = some got ∧ got.length ≤ subMsgSize ∧
      readString (SubMsg.ofBytes order (i.stack.overwrite got)).topic.toList ≠ .ok topic
  | _ => False

lemma lacks_set {sub' s : Server.Sub} {p : Server.Ptr}
    (h : ∀ s ∈ srv.heap, ¬ s.subscriptions.Holds topic) (hsub : ¬ sub'.subscriptions.Holds topic)
    (hs : s ∈ srv.heap.set p sub') : ¬ s.subscriptions.Holds topic := by
  rcases List.mem_or_eq_of_mem_set hs with hs | rfl
  · exact h s hs
  · exact hsub

/-- Such a message subscribes nobody to the topic. -/
lemma Lacks.step (h : Lacks u w id topic srv) {e : Server.Event} (he : Misses order topic e)
    {out : List Server.Effect} (hrun : Server.step order srv e = ⟨out,.ok srv'⟩) : Lacks u w id topic srv' := by
  cases e with
  | command io line => exact he.elim
  | datagram dgram => exact he.elim
  | connection conn => exact he.elim
  | message fd i =>
    obtain ⟨t,hinv⟩ := h.inv
    obtain ⟨got,hgot,hle,hmiss⟩ := he
    have hadmissible : Server.Admissible (baseFds u w) t (.message fd i) := by
      intro got' hgot'
      cases hgot.symm.trans hgot'
      exact hle
    have hinv' := hinv.step hadmissible hrun
    cases hinv.transition hrun with
    | ignored => exact ⟨⟨_,hinv'⟩,h.known,h.lacks⟩
    | resubscribed hgot' hp _ _ hgained =>
      cases hgot.symm.trans hgot'
      refine ⟨⟨_,hinv'⟩,h.known,fun hs => lacks_set (fun _ => h.lacks) ?_ hs⟩
      intro hholds
      rcases hgained topic hholds with hold | hread
      · exact h.lacks (List.mem_of_getElem? hp) hold
      · exact hmiss hread
    | @disconnected _ _ _ p sub _ _ _ _ hp _ _ _ _ hreg =>
      have hheap : srv'.heap = srv.heap.set p { sub with sockFd := -1 } := congrArg Server.Registry.heap hreg
      refine ⟨⟨_,hinv'⟩,?_,fun hs => ?_⟩
      · rw [hreg]
        exact h.known
      · rw [hheap] at hs
        have hold : ¬ sub.subscriptions.Holds topic := h.lacks (List.mem_of_getElem? hp)
        exact lacks_set (fun _ => h.lacks) (show ¬ ({ sub with sockFd := -1 } : Server.Sub).subscriptions.Holds topic
          from hold) hs

end Server

section Pieces
variable {order : ByteOrder} {b : UInt8} {piece topic : List UInt8}

lemma eq_append_zero_of_cString {l : List UInt8} (hzero : 0 ∈ l) (hlen : l.length = (cString l).length + 1) :
    l = cString l ++ [0] := by
  have hsplit : cString l ++ l.dropWhile (· ≠ 0) = l := List.takeWhile_append_dropWhile
  have hone : (l.dropWhile (· ≠ 0)).length = 1 := by
    have := congrArg List.length hsplit
    rw [List.length_append] at this
    omega
  obtain ⟨x,hx⟩ := List.length_eq_one_iff.mp hone
  rw [hx] at hsplit
  rw [← hsplit,List.mem_append,List.mem_singleton] at hzero
  rcases hzero with hzero | rfl
  · exact absurd hzero (zero_not_mem_cString _)
  · exact hsplit.symm

/-- Over a buffer without a NUL, a piece in which the server finds a topic that fills its field is a whole
message with that topic. -/
lemma piece_of_topic (hb : b ≠ 0) (hle : piece.length ≤ subMsgSize) (hlen : topic.length = maxTopicSize)
    (h : readString (SubMsg.ofBytes order ((Buffer.filled _ b).overwrite piece)).topic.toList = .ok topic) :
    piece.length = subMsgSize ∧ piece.drop 4 = topic ++ [0] := by
  have := sizes
  have hbuffer : ((Buffer.filled subMsgSize b).overwrite piece).toList =
      piece ++ List.replicate (subMsgSize - piece.length) b := by
    rw [Buffer.overwrite_toList _ hle,Buffer.filled_toList,List.drop_replicate]
  have hfield : (SubMsg.ofBytes order ((Buffer.filled _ b).overwrite piece)).topic.toList =
      (piece ++ List.replicate (subMsgSize - piece.length) b).drop 4 := by
    change (((Buffer.filled subMsgSize b).overwrite piece).toList.drop 4).take 51 = _
    rw [hbuffer,List.take_of_length_le]
    simp
    omega
  rw [hfield] at h
  obtain ⟨hzero,htopic⟩ := readString_eq_ok_iff.mp h
  have hl := eq_append_zero_of_cString hzero (by rw [htopic,hlen]; simp; omega)
  rw [htopic] at hl
  have hfull : piece.length = subMsgSize := by
    by_contra hshort
    have hlast : ((piece ++ List.replicate (subMsgSize - piece.length) b).drop 4)[50]? = some b := by
      rw [List.getElem?_drop,List.getElem?_append_right (by omega)]
      exact List.getElem?_replicate_of_lt (by omega)
    rw [hl,List.getElem?_append_right (by omega),hlen] at hlast
    exact hb (Option.some_injective _ hlast).symm
  refine ⟨hfull,?_⟩
  rwa [hfull,Nat.sub_self,List.replicate_zero,List.append_nil] at hl

end Pieces

section Initial
variable {order : ByteOrder} {first n k : ℕ} {rest : List ℕ} {id stream : List UInt8} {cmds : List Command}

/-- The first client, read over buffers full of spaces. -/
def probeIncomings (rest : List ℕ) (stream : List UInt8) : List Server.Incoming :=
  (rest.splitLengths stream).map fun piece => ⟨Buffer.filled _ (chr ' '),some piece,.ok⟩

/-- The table that the first client means. -/
def meantTable (id : List UInt8) (cmds : List Command) : Table (List UInt8) Int32 (List UInt8) :=
  (.connect id 5 :: cmds.map (Command.sessionEvent 5)).foldl Table.next Table.empty

variable (h : Establishes order (first :: rest) n k) (hid : id.length = n) (hnul : 0 ∉ id)
  (hcmds : cmds.length = k) (hproper : ∀ c ∈ cmds, c.Proper) (hstream : clientStream order ⟨7,id⟩ cmds = stream)
  (hrest : ∀ l ∈ rest, l ≤ subMsgSize)

lemma five_fresh : (5 : Int32) ≠ -1 ∧ (5 : Int32) ∉ Server.openFds (baseFds 3 4) [] := by decide

include h hid hnul hcmds hproper hstream in
/-- The handler calls for the first client. -/
lemma Establishes.initial : ∃ out srv', (Server.machine order 3 4).steps (Server.initSrv 3 4)
    (arrivalEvents (Server.wholeConnection 5 (stream.take first)) (probeIncomings rest (stream.drop first))) =
      ⟨out,.ok srv'⟩ ∧ srv'.registry.Represents (meantTable id cmds) := by
  refine h 3 4 [] [] _ .init ⟨7,id⟩ cmds hid hnul ?_ hcmds hproper _ _ five_fresh.1 five_fresh.2 ⟨?_,rfl,rfl,?_⟩
  · rintro fd ⟨s,hs,-⟩
    cases hs
  · rw [hstream,List.splitLengths_cons]
    simp [Server.wholeConnection,probeIncomings]
  · intro i hi
    obtain ⟨piece,-,rfl⟩ := List.mem_map.mp hi
    rfl

/-- After the connection the id is what the first `recv` returned, and nobody is subscribed. -/
lemma lacks_connected {got topic : List UInt8} {out : List Server.Effect} {srv : Srv}
    (hrun : Server.step order (Server.initSrv 3 4) (.connection (Server.wholeConnection 5 got)) = ⟨out,.ok srv⟩) :
    Lacks 3 4 (cString got) topic srv := by
  obtain ⟨got',hconn⟩ := Server.handleListenTcpMsg_ok order hrun
  cases hconn.received_eq
  have hnew : (Server.initSrv 3 4).registry.byId (cString got) = none := by rw [Server.registry_init]
  obtain ⟨srv',hrun',hsound,hreg⟩ := Server.handleListenTcpMsg_new (@Server.sound_init 3 4) order hconn hnew
  cases hrun'.symm.trans hrun
  have hadmissible : Server.Admissible (baseFds 3 4) [] (.connection (Server.wholeConnection 5 got)) := by
    refine ⟨fun _ => five_fresh.2,fun got' hgot' => ?_⟩
    cases hgot'
    have := hconn.fits
    omega
  refine ⟨⟨_,Server.inv_init.step hadmissible hrun⟩,?_,fun {sub} hsub => ?_⟩
  · rw [hreg]
    simp [Server.Registry.add]
  · have hheap : srv.heap = [] ++ [_] := congrArg Server.Registry.heap hreg
    rw [hheap,List.nil_append,List.mem_singleton] at hsub
    rw [hsub]
    exact trieCreate_holds 1 topic

include hrest in
/-- When no piece yields the topic, nobody is subscribed to it in the end. -/
lemma lacks_arrived (topic : List UInt8) {out : List Server.Effect} {srv : Srv}
    (hrun : (Server.machine order 3 4).steps (Server.initSrv 3 4)
      (arrivalEvents (Server.wholeConnection 5 (stream.take first)) (probeIncomings rest (stream.drop first))) =
        ⟨out,.ok srv⟩)
    (hmiss : ∀ piece ∈ rest.splitLengths (stream.drop first), readString
      (SubMsg.ofBytes order ((Buffer.filled _ (chr ' ')).overwrite piece)).topic.toList ≠ .ok topic) :
    Lacks 3 4 (cString (stream.take first)) topic srv := by
  rw [arrivalEvents,steps_cons] at hrun
  obtain ⟨o₁,srv₁,o₂,hconn,hmsgs,-⟩ := bind_eq_ok.mp hrun
  refine steps_invariant (Lacks 3 4 (cString (stream.take first)) topic)
    (fun _ _ _ _ hlacks hm hstep => hlacks.step hm hstep) (lacks_connected hconn) ?_ hmsgs
  intro e he
  obtain ⟨i,hi,rfl⟩ := List.mem_map.mp he
  obtain ⟨piece,hpiece,rfl⟩ := List.mem_map.mp hi
  obtain ⟨before,len,after,heq,hcut⟩ := mem_splitLengths hpiece
  have hlen : len ≤ subMsgSize := hrest len (by simp [heq])
  refine ⟨piece,rfl,?_,hmiss piece hpiece⟩
  rw [hcut,List.length_take]
  omega

include h hid hnul hcmds hproper hstream hrest

/-- The first `recv` returns the id and at most a NUL with more bytes. -/
lemma Establishes.id_eq : cString (stream.take first) = id := by
  obtain ⟨out,srv,hrun,hrep⟩ := h.initial hid hnul hcmds hproper hstream
  -- no C string is the one that consists of a NUL
  have hlacks := lacks_arrived hrest [0] hrun fun piece _ hread => by
    have hzero := (readString_eq_ok_iff.mp hread).2
    exact zero_not_mem_cString _ (hzero.symm ▸ List.mem_singleton_self 0)
  obtain ⟨t,hinv⟩ := hlacks.inv
  obtain ⟨p,hp⟩ := Option.isSome_iff_exists.mp hlacks.known
  obtain ⟨sub,hsub,hsubid⟩ := (hinv.coherent.byId_iff _ p).mp hp
  have hclient := hinv.coherent.client_of_getElem? hsub
  rw [hsubid] at hclient
  obtain ⟨s,hs,-⟩ := hrep.session_some hclient
  by_contra hne
  have hnone : (meantTable id cmds).session (cString (stream.take first)) = none := by
    apply Table.foldl_session_eq_none rfl
    rintro e he fd rfl
    rcases List.mem_cons.mp he with he | he
    · injection he with hid'
      exact hne hid'
    · obtain ⟨c,-,hc⟩ := List.mem_map.mp he
      cases c <;> cases hc
  cases hs.symm.trans hnone

/-- A topic that was subscribed to for good is found in some piece. -/
lemma Establishes.topic_found {topic : List UInt8} {topics : List (List UInt8)}
    (hsubscribe : cmds = topics.map .subscribe) (hmem : topic ∈ topics) :
    ∃ piece ∈ rest.splitLengths (stream.drop first), readString
      (SubMsg.ofBytes order ((Buffer.filled _ (chr ' ')).overwrite piece)).topic.toList = .ok topic := by
  obtain ⟨out,srv,hrun,hrep⟩ := h.initial hid hnul hcmds hproper hstream
  by_contra hno
  have hlacks := lacks_arrived hrest topic hrun fun piece hp hread => hno ⟨piece,hp,hread⟩
  obtain ⟨t,hinv⟩ := hlacks.inv
  have hevents : cmds.map (Command.sessionEvent 5) = topics.map (.subscribe 5) := by
    rw [hsubscribe,List.map_map]
    rfl
  have hconnected : ((Table.empty : Table (List UInt8) Int32 (List UInt8)).next (.connect id 5)).session id =
      some ⟨some 5,∅⟩ := by
    change (Table.set Table.empty id ⟨some 5,∅⟩).session id = _
    rw [Table.set_session,if_pos rfl]
  obtain ⟨s,hs,-,htopics⟩ := Table.foldl_subscribe hconnected rfl topics
  have hsession : (meantTable id cmds).session id = some s := by
    rw [meantTable,hevents]
    exact hs
  obtain ⟨sub,hclient,hisSession⟩ := hrep.client_some hsession
  obtain ⟨p,-,hp,-⟩ := hinv.coherent.getElem?_of_client hclient
  exact hlacks.lacks (List.mem_of_getElem? hp) ((hisSession.topics_iff topic).mp ((htopics topic).mpr (.inl hmem)))

end Initial

section Probe
variable (order : ByteOrder)

/-- A topic that fills its field. -/
def fullTopic : List UInt8 := List.replicate maxTopicSize (chr 'x')

/-- Subscriptions, the one after the first `j` to the full topic. -/
def probeTopics (j k : ℕ) : List (List UInt8) :=
  List.replicate j (chars "y") ++ fullTopic :: List.replicate (k - (j+1)) (chars "y")

lemma probeTopics_length {j k : ℕ} (hj : j < k) : (probeTopics j k).length = k := by
  simp [probeTopics]
  omega

lemma probeTopics_proper {j k : ℕ} : ∀ c ∈ (probeTopics j k).map Command.subscribe, c.Proper := by
  have hfull : (Command.subscribe fullTopic).Proper := ⟨by decide +kernel,by decide +kernel⟩
  have hletter : (Command.subscribe (chars "y")).Proper := ⟨by decide +kernel,by decide⟩
  intro c hc
  obtain ⟨topic,htopic,rfl⟩ := List.mem_map.mp hc
  rcases List.mem_append.mp htopic with htopic | htopic
  · rw [List.eq_of_mem_replicate htopic]
    exact hletter
  · rcases List.mem_cons.mp htopic with rfl | htopic
    · exact hfull
    · rw [List.eq_of_mem_replicate htopic]
      exact hletter

/-- The bytes of a subscription. -/
lemma subscribe_bytes {topic : List UInt8} (hfits : topic.length ≤ maxTopicSize) :
    (Command.subscribe topic).msg.bytes order =
      order.store32 subscribeSubMsg ++ (topic ++ List.replicate (maxTopicSize+1 - topic.length) 0) := by
  rw [SubMsg.bytes,@Command.msg_topic (.subscribe topic) hfits]
  rfl

lemma x_not_mem_store32 : chr 'x' ∉ order.store32 subscribeSubMsg := by
  cases order <;> decide

lemma x_not_mem_letter : chr 'x' ∉ (Command.subscribe (chars "y")).msg.bytes order := by
  rw [subscribe_bytes order (by decide)]
  simp only [List.mem_append,not_or]
  exact ⟨x_not_mem_store32 order,by decide,by decide +kernel⟩

lemma x_not_mem_letters (m : ℕ) : chr 'x' ∉
    ((List.replicate m (chars "y")).map Command.subscribe).flatMap fun c => c.msg.bytes order := by
  intro hx
  obtain ⟨c,hc,hx⟩ := List.mem_flatMap.mp hx
  rw [List.map_replicate] at hc
  rw [List.eq_of_mem_replicate hc] at hx
  exact x_not_mem_letter order hx

/-- The letter of the full topic occurs in its own subscription only. -/
lemma probe_stream (n : ℕ) {j k : ℕ} : ∃ before after,
    clientStream order ⟨7,List.replicate n (chr 'i')⟩ ((probeTopics j k).map .subscribe) =
        before ++ List.replicate maxTopicSize (chr 'x') ++ after ∧
      chr 'x' ∉ before ∧ chr 'x' ∉ after ∧ before.length = n + subMsgSize*j + 4 := by
  have hfull : fullTopic.length = maxTopicSize := List.length_replicate
  refine ⟨List.replicate n (chr 'i') ++
      ((List.replicate j (chars "y")).map Command.subscribe).flatMap (fun c => c.msg.bytes order) ++
      order.store32 subscribeSubMsg,
    List.replicate (maxTopicSize+1 - maxTopicSize) 0 ++
      ((List.replicate (k - (j+1)) (chars "y")).map Command.subscribe).flatMap fun c => c.msg.bytes order,
    ?_,?_,?_,?_⟩
  · rw [clientStream_eq order _ fun c hc => (probeTopics_proper c hc).fits,probeTopics,List.map_append,
      List.flatMap_append,List.map_cons,List.flatMap_cons,subscribe_bytes order hfull.le,hfull,fullTopic]
    simp only [List.append_assoc]
  · simp only [List.mem_append,not_or]
    refine ⟨⟨fun hx => ?_,x_not_mem_letters order j⟩,x_not_mem_store32 order⟩
    exact absurd (List.eq_of_mem_replicate hx) (by decide)
  · rw [List.mem_append,not_or]
    refine ⟨fun hx => ?_,x_not_mem_letters order _⟩
    exact absurd (List.eq_of_mem_replicate hx) (by decide)
  · simp only [List.length_append,List.length_replicate,List.length_flatMap,SubMsg.bytes_length,
      ByteOrder.store32_length,List.map_const',List.sum_replicate,List.length_map,smul_eq_mul]
    ring

variable {order} {n k first : ℕ} {rest : List ℕ} (h : Establishes order (first :: rest) n k)
  (hrest : ∀ l ∈ rest, l ≤ subMsgSize)
include h hrest

lemma Establishes.le_first : n ≤ first := by
  have hproper : ∀ c ∈ (List.replicate k (chars "y")).map Command.subscribe, c.Proper := by
    intro c hc
    rw [List.map_replicate] at hc
    rw [List.eq_of_mem_replicate hc]
    exact ⟨by decide +kernel,by decide⟩
  have hid : (List.replicate n (chr 'i')).length = n := List.length_replicate
  have heq := h.id_eq hid (fun h0 => absurd (List.eq_of_mem_replicate h0) (by decide)) (by simp) hproper rfl hrest
  calc n = (List.replicate n (chr 'i')).length := hid.symm
    _ ≤ (List.take first _).length := by
      rw [← heq]
      exact cString_length_le _
    _ ≤ first := List.length_take_le _ _

/-- A whole message is read where each message starts. -/
lemma Establishes.boundary {j : ℕ} (hj : j < k) :
    ∃ before after, rest = before ++ subMsgSize :: after ∧ first + before.sum = n + subMsgSize*j := by
  have := sizes
  have hfull : fullTopic.length = maxTopicSize := List.length_replicate
  obtain ⟨l,r,hstream,hl,hr,hllen⟩ := @probe_stream order n j k
  obtain ⟨piece,hpiece,hread⟩ := h.topic_found List.length_replicate
    (fun h0 => absurd (List.eq_of_mem_replicate h0) (by decide)) (by simpa using probeTopics_length hj)
    probeTopics_proper hstream hrest rfl (show fullTopic ∈ probeTopics j k by simp [probeTopics])
  obtain ⟨before,len,after,heq,hcut⟩ := mem_splitLengths hpiece
  have hlen : len ≤ subMsgSize := hrest len (by simp [heq])
  have hpiecelen : piece.length ≤ len := by
    rw [hcut]
    exact List.length_take_le _ _
  obtain ⟨hwhole,htopic⟩ := piece_of_topic (by decide) (by omega) hfull hread
  -- the letters of the topic in the piece are those in the stream
  have hletter : ∀ i < maxTopicSize,
      (l ++ List.replicate maxTopicSize (chr 'x') ++ r)[first + before.sum + 4 + i]? = some (chr 'x') := by
    intro i hi
    have hi' : (piece.drop 4)[i]? = some (chr 'x') := by
      rw [htopic,List.getElem?_append_left (by omega),fullTopic]
      exact List.getElem?_replicate_of_lt hi
    rw [List.getElem?_drop,hcut,List.getElem?_take_of_lt (by omega),List.getElem?_drop,List.getElem?_drop] at hi'
    rw [← hi']
    congr 1
    omega
  have hlow := bounds_of_getElem? hl hr (hletter 0 (by omega))
  have hhigh := bounds_of_getElem? hl hr (hletter 49 (by omega))
  refine ⟨before,after,?_,by omega⟩
  rw [heq,show len = subMsgSize by omega]

end Probe

/-- A subscriber's stream is handled as it is meant exactly when the first `recv` returns the id and
every other one a whole message: for ids of `n` bytes, `k` commands and pieces of these lengths. -/
theorem clientStream_established_iff (order : ByteOrder) {n k first : ℕ} {rest : List ℕ} (hn : n ≤ maxIdSize)
    (hrest : ∀ l ∈ rest, 1 ≤ l ∧ l ≤ subMsgSize) (hsum : first + rest.sum = n + subMsgSize*k) :
    Establishes order (first :: rest) n k ↔ first = n ∧ rest = List.replicate k subMsgSize := by
  constructor
  · intro h
    have hle : ∀ l ∈ rest, l ≤ subMsgSize := fun l hl => (hrest l hl).2
    have hge := h.le_first hle
    have hfirst : first = n := by
      cases k with
      | zero =>
        simp only [Nat.mul_zero] at hsum
        omega
      | succ k =>
        obtain ⟨before,after,-,hstart⟩ := h.boundary hle (Nat.succ_pos k)
        simp only [Nat.mul_zero] at hstart
        omega
    subst hfirst
    refine ⟨rfl,eq_replicate_of_boundaries (fun l hl => (hrest l hl).1) (by decide) (by omega) fun j hj => ?_⟩
    obtain ⟨before,after,heq,hstart⟩ := h.boundary hle hj
    exact ⟨before,after,heq,by omega⟩
  · rintro ⟨rfl,rfl⟩
    exact establishes_whole order hn k

/-- An id of one byte and one command. -/
theorem clientStream_established_one : Establishes .little [1,55] 1 1 ↔ 1 = 1 ∧ [55] = List.replicate 1 subMsgSize :=
  clientStream_established_iff .little (by decide) (by decide) (by decide)

/-- Client `c` subscribes to `a/+` at once, and its id arrives together with the start of the message: the
server leaves its array. -/
theorem clientStream_joined_undefined : ∃ conn incomings,
    Arrives ([11,45].splitLengths (clientStream .little ⟨7,chars "c"⟩ [.subscribe (chars "a/+")])) conn incomings ∧
      conn.fd ≠ -1 ∧ conn.fd ∉ Server.openFds (baseFds 3 4) [] ∧
      ((Server.machine .little 3 4).steps (Server.initSrv 3 4) (arrivalEvents conn incomings)).result =
        .error .undefined := by
  obtain ⟨stream,hstream⟩ : ∃ stream, clientStream .little ⟨7,chars "c"⟩ [.subscribe (chars "a/+")] = stream :=
    ⟨_,rfl⟩
  have hlen : (stream.take 11).length = 11 := by
    rw [← hstream,clientStream_eq .little _ (by decide)]
    simp [chars]
    decide
  refine ⟨Server.wholeConnection 5 (stream.take 11),probeIncomings [45] (stream.drop 11),⟨?_,rfl,rfl,?_⟩,
    five_fresh.1,five_fresh.2,?_⟩
  · rw [hstream,List.splitLengths_cons]
    simp [Server.wholeConnection,probeIncomings]
  · intro i hi
    obtain ⟨piece,-,rfl⟩ := List.mem_map.mp hi
    rfl
  · have hstep := @Server.handleListenTcpMsg_long .little (Server.initSrv 3 4)
      (Server.wholeConnection 5 (stream.take 11)) _
      five_fresh.1 rfl rfl (by rw [hlen]; decide)
    have hfirst : (Server.machine .little 3 4).step (Server.initSrv 3 4)
        (.connection (Server.wholeConnection 5 (stream.take 11))) = ⟨[.accept 5],.error .undefined⟩ := hstep
    rw [arrivalEvents,steps_cons,hfirst,mk_error_bind]

end ClientServerApp.Network
