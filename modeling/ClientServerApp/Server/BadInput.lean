import ClientServerApp.Server.Sessions

/-! Input that no orderly client sends: an end of stream without a close message, and topics that
are no words over the alphabet. -/
namespace ClientServerApp.Server
open Traced Runs TrieNode

section EndOfStream
variable (order : ByteOrder) (srv : Srv) (pfdIdx : ℕ) (p : Ptr) (sub : Sub) (stack : Buffer subMsgSize)

/-- When `recv` returns 0 the handler disconnects the client and keeps its subscriptions. -/
def DisconnectsAtEof : Prop := ∃ out srv' idx sub',
  handleSubMsg order srv pfdIdx ⟨stack,some [],.ok⟩ = ⟨out,.ok (srv',idx)⟩ ∧ srv'.heap[p]? = some sub' ∧
    sub'.id = sub.id ∧ sub'.subscriptions = sub.subscriptions ∧ sub'.sockFd = -1 ∧
    sub.sockFd ∉ srv'.watched ∧ htGet srv'.subsByFd sub.sockFd.toUInt32 = none

variable {srv p sub} {u w : Int32} {t : List Effect} (h : Inv u w t srv) {i : ℕ}
  (hp : srv.heap[p]? = some sub) (hlive : sub.sockFd ≠ -1) (hi : srv.watched[i]? = some sub.sockFd)

lemma getElem?_set_self_of_some {α : Type} {l : List α} {q : ℕ} {x : α} (hq : l[q]? = some x) (y : α) :
    (l.set q y)[q]? = some y := by
  rw [getElem?_set_of_some hq,if_pos rfl]

include h hp hlive hi

/-- Nothing is received, so the message is what was on the stack before. -/
lemma handleSubMsg_eof : handleSubMsg order srv (i+3) ⟨stack,some [],.ok⟩ =
    executeSubMsg srv .ok p (i+3) (SubMsg.ofBytes order stack) := by
  rw [handleSubMsg_eq order hi ((h.coherent.byFd_iff _ p).mpr ⟨hlive,sub,hp,rfl⟩) hp]
  simp only [Buffer.overwrite_nil]

/-- The end of the stream is treated as one exactly when the stack happens to hold the type of a
close message. -/
lemma disconnectsAtEof_iff : DisconnectsAtEof order srv (i+3) p sub stack ↔
    (SubMsg.ofBytes order stack).type = closeSubMsg := by
  unfold DisconnectsAtEof
  rw [handleSubMsg_eof order stack h hp hlive hi]
  constructor
  · rintro ⟨out,srv',idx,sub',hrun,hp',-,-,hsock,-⟩
    by_contra hclose
    rcases (SubMsg.ofBytes order stack).type_cases with hun | hsub | hclose' | ⟨hun,hsub,-⟩
    · rw [executeSubMsg_unsubscribe hp _ _ hun] at hrun
      obtain ⟨topic,-,hrun⟩ := lift_bind_eq_ok.mp hrun
      obtain ⟨subscriptions,-,hrun⟩ := lift_bind_eq_ok.mp hrun
      cases hrun
      cases (getElem?_set_self_of_some hp _).symm.trans hp'
      exact hlive hsock
    · rw [executeSubMsg_subscribe hp _ _ hsub] at hrun
      obtain ⟨topic,-,hrun⟩ := lift_bind_eq_ok.mp hrun
      obtain ⟨subscriptions,-,hrun⟩ := lift_bind_eq_ok.mp hrun
      cases hrun
      cases (getElem?_set_self_of_some hp _).symm.trans hp'
      exact hlive hsock
    · exact hclose hclose'
    · rw [executeSubMsg_other _ _ hun hsub hclose] at hrun
      cases hrun
      cases hp.symm.trans hp'
      exact hlive hsock
  · intro hclose
    have hio : sub.sockFd ∉ Io.ok.closeFails := List.not_mem_nil
    obtain ⟨srv',hrun,-,hreg,-⟩ := subClosesSrvConnection_spec h.sound h.coherent hp hi hio
    refine ⟨_,srv',i+2,{ sub with sockFd := -1 },(executeSubMsg_close _ _ hclose).trans hrun,?_,rfl,rfl,rfl,?_,?_⟩
    · change srv'.registry.heap[p]? = _
      rw [hreg]
      exact getElem?_set_self_of_some hp _
    · change sub.sockFd ∉ srv'.registry.watched
      rw [hreg]
      exact h.coherent.nodup.not_mem_erase
    · change srv'.registry.byFd sub.sockFd = none
      rw [hreg]
      exact Function.update_self sub.sockFd none srv.registry.byFd

end EndOfStream

section ForeignTopics
variable {trie : Trie topicAlphabet.length} (h : SubscriptionTrie trie) {topic : List UInt8}

/-- A search for a key with a foreign letter leaves the array of children when the letters before it
lead to a node, and finds nothing otherwise. -/
lemma trieSearchHelper_foreign {info : TrieInfo} (ha : info.alphabet = topicAlphabet) (node : TopicNode)
    {key : List UInt8} (hkey : ¬ IsTopic key) : trieSearchHelper info node key =
      if (node.descend (knownPart key)).isSome then .error .undefined else .ok none := by
  induction key generalizing node with
  | nil => exact absurd (fun c hc => absurd hc List.not_mem_nil) hkey
  | cons c key ih =>
    by_cases hc : c ∈ topicAlphabet
    · obtain ⟨i,hi⟩ := exists_slot hc
      have hrest : ¬ IsTopic key := by
        intro hword
        apply hkey
        intro d hd
        rcases List.mem_cons.mp hd with rfl | hd
        · exact hc
        · exact hword d hd
      have hknown : knownPart (c :: key) = c :: knownPart key := by simp [knownPart,hc]
      rw [trieSearchHelper,ha,getIndex_of_slot hi,child_fin,hknown]
      simp only [descend,hi,Option.bind_some]
      cases ht : node.children i with
      | none => rfl
      | some t => exact ih t hrest
    · have hknown : knownPart (c :: key) = [] := by simp [knownPart,hc]
      rw [trieSearchHelper,ha,getIndex_foreign hc,child_neg_one,hknown]
      rfl

/-- The letters of the topic before its first foreign one are at least one letter and lead out of the
stored topics. -/
def StraysEarly (trie : Trie topicAlphabet.length) (topic : List UInt8) : Prop :=
  knownPart topic ≠ [] ∧ ∀ key, trie.Holds key → ¬ knownPart topic <+: key

include h

lemma descend_isSome_iff_not_straysEarly (topic : List UInt8) :
    (trie.root.descend (knownPart topic)).isSome ↔ ¬ StraysEarly trie topic := by
  unfold StraysEarly
  rw [descend_isSome_iff h.valid.wellFormed]
  constructor
  · rintro (hnil | ⟨key,hkey,hpre⟩) ⟨hne,hstray⟩
    · exact hne hnil
    · exact hstray key hkey hpre
  · intro hnot
    by_contra hno
    rw [not_or] at hno
    exact hnot ⟨hno.1,fun key hkey hpre => hno.2 ⟨key,hkey,hpre⟩⟩

/-- `trie_search` answers `NULL` for a key with a foreign letter exactly when the search strays before
that letter. -/
lemma trieSearch_foreign_iff (htopic : ¬ IsTopic topic) :
    trieSearch trie topic = .ok none ↔ StraysEarly trie topic := by
  rw [trieSearch,trieSearchHelper_foreign h.valid.alphabet_eq trie.root htopic]
  have hiff := descend_isSome_iff_not_straysEarly h topic
  by_cases hsome : (trie.root.descend (knownPart topic)).isSome
  · rw [if_pos hsome]
    simp [hiff.mp hsome]
  · rw [if_neg hsome]
    rw [hiff,not_not] at hsome
    simp [hsome]

/-- An unsubscription from such a topic is executed exactly then, and changes nothing. -/
lemma rmvSubscription_foreign (htopic : ¬ IsTopic topic) {trie' : Trie topicAlphabet.length} :
    rmvSubscription trie topic = .ok trie' ↔ StraysEarly trie topic ∧ trie' = trie := by
  unfold rmvSubscription
  rw [trieSearch,trieSearchHelper_foreign h.valid.alphabet_eq trie.root htopic]
  have hiff := descend_isSome_iff_not_straysEarly h topic
  by_cases hsome : (trie.root.descend (knownPart topic)).isSome
  · rw [if_pos hsome]
    constructor
    · intro hrun
      cases hrun
    · intro hstray
      exact absurd hstray.1 (hiff.mp hsome)
  · rw [if_neg hsome]
    rw [hiff,not_not] at hsome
    constructor
    · intro hrun
      cases hrun
      exact ⟨hsome,rfl⟩
    · rintro ⟨-,rfl⟩
      rfl

end ForeignTopics

section BadTopics
variable (order : ByteOrder) (srv : Srv) (pfdIdx : ℕ) (p : Ptr) (sub : Sub) (stack : Buffer subMsgSize) (io : Io)
  (msg : SubMsg)

/-- The handler comes back to the loop after a whole message, without undefined behaviour on the way.
A topic that is no word over the alphabet leaves the trie as it was, and `trie_search` answers
`NULL` for it. -/
def HandlesTopic : Prop := ∃ out srv' idx sub',
  handleSubMsg order srv pfdIdx ⟨stack,some (msg.bytes order),io⟩ = ⟨out,.ok (srv',idx)⟩ ∧
    srv'.heap[p]? = some sub' ∧ (¬ IsTopic (cString msg.topic.toList) →
      sub'.subscriptions = sub.subscriptions ∧ trieSearch sub.subscriptions (cString msg.topic.toList) = .ok none)

variable {srv p sub msg} {u w : Int32} {t : List Effect} (h : Inv u w t srv) {i : ℕ}
  (hp : srv.heap[p]? = some sub) (hlive : sub.sockFd ≠ -1) (hi : srv.watched[i]? = some sub.sockFd)
include h hp hlive hi

lemma handleSubMsg_whole : handleSubMsg order srv (i+3) ⟨stack,some (msg.bytes order),io⟩ =
    executeSubMsg srv io p (i+3) msg := by
  rw [handleSubMsg_eq order hi ((h.coherent.byFd_iff _ p).mpr ⟨hlive,sub,hp,rfl⟩) hp]
  simp only [subMsg_whole]

/-- A topic without a NUL is read past its field. -/
lemma not_handlesTopic (htype : msg.type = subscribeSubMsg ∨ msg.type = unsubscribeSubMsg)
    (hnul : 0 ∉ msg.topic.toList) : ¬ HandlesTopic order srv (i+3) p sub stack io msg := by
  rintro ⟨out,srv',idx,sub',hrun,-⟩
  have hread : readString msg.topic.toList = .error .undefined := if_neg hnul
  rw [handleSubMsg_whole order stack io h hp hlive hi] at hrun
  rcases htype with hsub | hun
  · rw [executeSubMsg_subscribe hp _ _ hsub,hread,lift_error_bind] at hrun
    exact halt_ne_ok _ _ _ hrun
  · rw [executeSubMsg_unsubscribe hp _ _ hun,hread,lift_error_bind] at hrun
    exact halt_ne_ok _ _ _ hrun

/-- A subscription to anything but a word over the alphabet stops the server. -/
lemma handlesTopic_subscribe_iff (hsub : msg.type = subscribeSubMsg) (hnul : 0 ∈ msg.topic.toList) :
    HandlesTopic order srv (i+3) p sub stack io msg ↔ IsTopic (cString msg.topic.toList) := by
  have htrie := h.coherent.trie (List.mem_of_getElem? hp)
  unfold HandlesTopic
  rw [handleSubMsg_whole order stack io h hp hlive hi,executeSubMsg_subscribe hp _ _ hsub,readString_ok hnul,
    lift_ok_bind]
  constructor
  · rintro ⟨out,srv',idx,sub',hrun,-⟩
    by_contra htopic
    rw [addSubscription_foreign htrie htopic,lift_error_bind] at hrun
    exact halt_ne_ok _ _ _ hrun
  · intro htopic
    obtain ⟨trie',hadd,-,-⟩ := addSubscription_topic htrie htopic
    rw [hadd,lift_ok_bind]
    exact ⟨_,_,_,_,rfl,getElem?_set_self_of_some hp _,fun hno => absurd htopic hno⟩

/-- An unsubscription is handled when the search for its topic stays inside the array of children. -/
lemma handlesTopic_unsubscribe_iff (hun : msg.type = unsubscribeSubMsg) (hnul : 0 ∈ msg.topic.toList) :
    HandlesTopic order srv (i+3) p sub stack io msg ↔
      IsTopic (cString msg.topic.toList) ∨ StraysEarly sub.subscriptions (cString msg.topic.toList) := by
  have htrie := h.coherent.trie (List.mem_of_getElem? hp)
  unfold HandlesTopic
  rw [handleSubMsg_whole order stack io h hp hlive hi,executeSubMsg_unsubscribe hp _ _ hun,readString_ok hnul,
    lift_ok_bind]
  constructor
  · rintro ⟨out,srv',idx,sub',hrun,-⟩
    rw [or_iff_not_imp_left]
    intro htopic
    obtain ⟨subscriptions,hrmv,-⟩ := lift_bind_eq_ok.mp hrun
    exact ((rmvSubscription_foreign htrie htopic).mp hrmv).1
  · intro hhandled
    by_cases htopic : IsTopic (cString msg.topic.toList)
    · obtain ⟨trie',hrmv,-,-⟩ := rmvSubscription_topic htrie htopic
      rw [hrmv,lift_ok_bind]
      exact ⟨_,_,_,_,rfl,getElem?_set_self_of_some hp _,fun hno => absurd htopic hno⟩
    · have hstray := hhandled.resolve_left htopic
      rw [(rmvSubscription_foreign htrie htopic).mpr ⟨hstray,rfl⟩,lift_ok_bind]
      refine ⟨_,_,_,_,rfl,getElem?_set_self_of_some hp _,fun _ => ⟨rfl,?_⟩⟩
      exact (trieSearch_foreign_iff htrie htopic).mpr hstray

/-- A topic is handled exactly when it has a NUL and is a word over the alphabet, or it has a NUL and
an unsubscription from it strays early. -/
lemma handlesTopic_iff (htype : msg.type = subscribeSubMsg ∨ msg.type = unsubscribeSubMsg) :
    HandlesTopic order srv (i+3) p sub stack io msg ↔
      0 ∈ msg.topic.toList ∧ (IsTopic (cString msg.topic.toList) ∨
        msg.type = unsubscribeSubMsg ∧ StraysEarly sub.subscriptions (cString msg.topic.toList)) := by
  by_cases hnul : 0 ∈ msg.topic.toList
  · rw [and_iff_right hnul]
    rcases htype with hsub | hun
    · have hne : ¬ msg.type = unsubscribeSubMsg := by
        rw [hsub]
        decide
      rw [handlesTopic_subscribe_iff order stack io h hp hlive hi hsub hnul]
      simp [hne]
    · rw [handlesTopic_unsubscribe_iff order stack io h hp hlive hi hun hnul,and_iff_right hun]
  · exact iff_of_false (not_handlesTopic order stack io h hp hlive hi htype hnul) fun hand => hnul hand.1

end BadTopics

/-- After the events of `subscribedEvents` client `c` is connected on descriptor 5. -/
lemma exists_subscribed_client : ∃ (t : List Effect) (srv : Srv) (i : ℕ) (p : Ptr) (sub : Sub),
    Run (machine .little 3 4) (Admissible (baseFds 3 4)) subscribedEvents t srv ∧ srv.heap[p]? = some sub ∧
      sub.sockFd = 5 ∧ srv.watched[i]? = some sub.sockFd := by
  obtain ⟨t,srv,run⟩ := exists_subscribed_run
  have h := orderly_inv run
  obtain ⟨i,p,sub,hi,-,-,hp,hsock,-⟩ := h.entry (subscribed_watched run)
  exact ⟨t,srv,i,p,sub,run.mono fun _ _ _ ho => ho.admissible,hp,hsock,hi.trans (by rw [hsock])⟩

/-- End of stream: in every reachable state and for every connected client it is treated as a
disconnection exactly when the type left on the stack is that of a close message. -/
theorem eof_disconnects_iff {u w : Int32} {order : ByteOrder} {es : List Event} {t : List Effect} {srv : Srv}
    (run : Run (machine order u w) (Admissible (baseFds u w)) es t srv) {p : Ptr} {sub : Sub}
    (hp : srv.heap[p]? = some sub) (hlive : sub.sockFd ≠ -1) {i : ℕ}
    (hi : srv.watched[i]? = some sub.sockFd) (stack : Buffer subMsgSize) :
    DisconnectsAtEof order srv (i+3) p sub stack ↔ (SubMsg.ofBytes order stack).type = closeSubMsg :=
  disconnectsAtEof_iff order stack (reachable_inv run) hp hlive hi

theorem eof_disconnects_subscribed : ∃ (t : List Effect) (srv : Srv) (i : ℕ) (p : Ptr) (sub : Sub),
    Run (machine .little 3 4) (Admissible (baseFds 3 4)) subscribedEvents t srv ∧
      srv.heap[p]? = some sub ∧ srv.watched[i]? = some sub.sockFd ∧
      (DisconnectsAtEof .little srv (i+3) p sub (Buffer.zeroed _) ↔
        (SubMsg.ofBytes .little (Buffer.zeroed _)).type = closeSubMsg) := by
  obtain ⟨t,srv,i,p,sub,run,hp,hsock,hi⟩ := exists_subscribed_client
  have hlive : sub.sockFd ≠ -1 := by
    rw [hsock]
    decide
  exact ⟨t,srv,i,p,sub,run,hp,hi,eof_disconnects_iff run hp hlive hi (Buffer.zeroed _)⟩

/-- Client `c` goes away while the stack holds zeros, the type of a subscription: it stays connected. -/
theorem eof_zero_stack_stays : ∃ (t : List Effect) (srv : Srv) (i : ℕ) (p : Ptr) (sub : Sub),
    Run (machine .little 3 4) (Admissible (baseFds 3 4)) subscribedEvents t srv ∧
      srv.heap[p]? = some sub ∧ sub.sockFd ≠ -1 ∧ srv.watched[i]? = some sub.sockFd ∧
      ¬ DisconnectsAtEof .little srv (i+3) p sub (Buffer.zeroed _) := by
  obtain ⟨t,srv,i,p,sub,run,hp,hsock,hi⟩ := exists_subscribed_client
  have hlive : sub.sockFd ≠ -1 := by
    rw [hsock]
    decide
  refine ⟨t,srv,i,p,sub,run,hp,hlive,hi,?_⟩
  rw [disconnectsAtEof_iff .little (Buffer.zeroed _) (reachable_inv run) hp hlive hi]
  decide +kernel

/-- Bad topics: in every reachable state a subscribe or unsubscribe message of a connected client is
handled cleanly exactly when its topic has a NUL and is a word over the alphabet, or it has a NUL, the
message unsubscribes, and the letters before the first foreign one are at least one letter and lead
out of the stored topics. -/
theorem badTopic_handled_iff {u w : Int32} {order : ByteOrder} {es : List Event} {t : List Effect} {srv : Srv}
    (run : Run (machine order u w) (Admissible (baseFds u w)) es t srv) {p : Ptr} {sub : Sub}
    (hp : srv.heap[p]? = some sub) (hlive : sub.sockFd ≠ -1) {i : ℕ}
    (hi : srv.watched[i]? = some sub.sockFd) (stack : Buffer subMsgSize) (io : Io) {msg : SubMsg}
    (htype : msg.type = subscribeSubMsg ∨ msg.type = unsubscribeSubMsg) :
    HandlesTopic order srv (i+3) p sub stack io msg ↔
      0 ∈ msg.topic.toList ∧ (IsTopic (cString msg.topic.toList) ∨
        msg.type = unsubscribeSubMsg ∧ StraysEarly sub.subscriptions (cString msg.topic.toList)) :=
  handlesTopic_iff order stack io (reachable_inv run) hp hlive hi htype

theorem badTopic_handled_space : ∃ (t : List Effect) (srv : Srv) (i : ℕ) (p : Ptr) (sub : Sub),
    Run (machine .little 3 4) (Admissible (baseFds 3 4)) subscribedEvents t srv ∧
      srv.heap[p]? = some sub ∧ srv.watched[i]? = some sub.sockFd ∧
      (HandlesTopic .little srv (i+3) p sub (Buffer.zeroed _) .ok ⟨unsubscribeSubMsg,topicField (chars "x y")⟩ ↔
        0 ∈ (topicField (chars "x y")).toList ∧ (IsTopic (cString (topicField (chars "x y")).toList) ∨
          unsubscribeSubMsg = unsubscribeSubMsg ∧
            StraysEarly sub.subscriptions (cString (topicField (chars "x y")).toList))) := by
  obtain ⟨t,srv,i,p,sub,run,hp,hsock,hi⟩ := exists_subscribed_client
  have hlive : sub.sockFd ≠ -1 := by
    rw [hsock]
    decide
  exact ⟨t,srv,i,p,sub,run,hp,hi,badTopic_handled_iff run hp hlive hi (Buffer.zeroed _) .ok (.inr rfl)⟩

/-- Client `c` subscribes to `a b`: the server does not come back to its loop. -/
theorem badTopic_subscribe_dies : ∃ (t : List Effect) (srv : Srv) (i : ℕ) (p : Ptr) (sub : Sub),
    Run (machine .little 3 4) (Admissible (baseFds 3 4)) subscribedEvents t srv ∧
      srv.heap[p]? = some sub ∧ sub.sockFd ≠ -1 ∧ srv.watched[i]? = some sub.sockFd ∧
      ¬ HandlesTopic .little srv (i+3) p sub (Buffer.zeroed _) .ok ⟨subscribeSubMsg,topicField (chars "a b")⟩ := by
  obtain ⟨t,srv,i,p,sub,run,hp,hsock,hi⟩ := exists_subscribed_client
  have hlive : sub.sockFd ≠ -1 := by
    rw [hsock]
    decide
  refine ⟨t,srv,i,p,sub,run,hp,hlive,hi,?_⟩
  rw [handlesTopic_iff .little (Buffer.zeroed _) .ok (reachable_inv run) hp hlive hi (.inl rfl)]
  rintro ⟨-,hword | ⟨hun,-⟩⟩
  · revert hword
    decide +kernel
  · exact absurd hun (by decide)

end ClientServerApp.Server
