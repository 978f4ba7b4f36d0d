import ClientServerApp.Matcher.Subscribed

/-! The keys of one subscription trie act independently of each other. -/
namespace ClientServerApp
open TrieNode

/-- Calls with words over the alphabet led from a created trie to this one and left these keys. -/
def HasKeys (trie : Trie topicAlphabet.length) (keys : Finset (List UInt8)) : Prop :=
  ∃ ops, (∀ op ∈ ops, op.Proper topicAlphabet trie.info.dataSize) ∧
    trieAfter trie.info.dataSize topicAlphabet ops = .ok trie ∧ keysAfter ops = keys

namespace HasKeys
variable {trie trie' : Trie topicAlphabet.length} {keys : Finset (List UInt8)} {key value topic : List UInt8}

/-- Every finite set of words over the alphabet can be held. -/
lemma exists_trie (hkeys : ∀ k ∈ keys, IsTopic k) : ∃ trie, HasKeys trie keys := by
  have hops : ∀ op ∈ keys.toList.map (TrieOp.insert · [0]), op.Proper topicAlphabet 1 := by
    intro op hop
    obtain ⟨k,hk,rfl⟩ := List.mem_map.mp hop
    exact ⟨hkeys k (Finset.mem_toList.mp hk),le_rfl⟩
  have hafter : ∀ ks : List (List UInt8), keysAfter (ks.map (TrieOp.insert · [0])) = ks.toFinset := by
    intro ks
    induction ks using List.reverseRecOn with
    | nil => rfl
    | append_singleton ks k ih =>
      rw [List.map_append,keysAfter,List.foldl_append]
      change insert k (keysAfter (ks.map (TrieOp.insert · [0]))) = _
      rw [ih,List.toFinset_append,Finset.union_comm]
      rfl
  obtain ⟨trie,hrun,-,hs,-⟩ := trieAfter_read hops
  refine ⟨trie,keys.toList.map (TrieOp.insert · [0]),by rwa [hs],by rwa [hs],?_⟩
  rw [hafter,Finset.toList_toFinset]

section Trie
variable (h : HasKeys trie keys)
include h

lemma spec : trie.Valid ∧ ∀ k, trie.Holds k ↔ k ∈ keys := by
  obtain ⟨ops,hops,hrun,rfl⟩ := h
  obtain ⟨trie',hrun',hvalid,hkeys⟩ := trieAfter_spec hops
  cases hrun'.symm.trans hrun
  exact ⟨hvalid,hkeys⟩

/-- One more call of the trie functions. -/
lemma apply {op : TrieOp} (hop : op.Proper topicAlphabet trie.info.dataSize) (hrun : op.apply trie = .ok trie') :
    HasKeys trie' (op.update keys) := by
  have hsize : trie'.info.dataSize = trie.info.dataSize := by
    cases op with
    | insert key value =>
      obtain ⟨_,hrun',-,hs,-⟩ := h.spec.1.insert hop.1 hop.2
      cases hrun'.symm.trans hrun
      exact hs
    | remove key =>
      obtain ⟨_,hrun',-,hs,-⟩ := h.spec.1.remove key
      cases hrun'.symm.trans hrun
      exact hs
  obtain ⟨ops,hops,hbefore,rfl⟩ := h
  refine ⟨ops ++ [op],?_,?_,?_⟩
  · rw [hsize]
    intro o ho
    rcases List.mem_append.mp ho with ho | ho
    · exact hops o ho
    · rwa [List.mem_singleton.mp ho]
  · rw [hsize,trieAfter,List.foldlM_append]
    change (trieAfter trie.info.dataSize topicAlphabet ops >>= _) = _
    rw [hbefore]
    change (op.apply trie >>= pure) = _
    rw [hrun]
    rfl
  · rw [keysAfter,List.foldl_append]
    rfl

/-- The matcher answers whether one of the patterns of the topic is a key. -/
lemma isSubscribed_true_iff (htopic : IsTopic topic) :
    isSubscribed trie.root topic = .ok true ↔ ∃ k ∈ keys, k ∈ patterns topic := by
  rw [isSubscribed_topic trie.root htopic,Except.ok.injEq,List.any_eq_true]
  constructor
  · rintro ⟨q,hq,hstored⟩
    exact ⟨q,(h.spec.2 q).mp hstored,hq⟩
  · rintro ⟨k,hk,hq⟩
    exact ⟨k,hq,(h.spec.2 k).mpr hk⟩

end Trie

/-- With one key the matcher answers whether the key is a pattern of the topic. -/
lemma isSubscribed_singleton (h : HasKeys trie {key}) (htopic : IsTopic topic) :
    isSubscribed trie.root topic = .ok true ↔ key ∈ patterns topic := by
  rw [h.isSubscribed_true_iff htopic]
  simp

end HasKeys

/-- Independence: every finite set of keys over the alphabet has a trie, and on each such trie a topic over the
alphabet is accepted exactly when it is accepted on a trie with one of the keys alone. A further key takes
no topic away, and removing a key leaves the topics of the other keys. -/
theorem isSubscribed_independent {keys : Finset (List UInt8)} (hkeys : ∀ k ∈ keys, IsTopic k)
    {alone : List UInt8 → Trie topicAlphabet.length} (halone : ∀ k ∈ keys, HasKeys (alone k) {k})
    {topic : List UInt8} (htopic : IsTopic topic) :
    (∃ trie, HasKeys trie keys) ∧ ∀ trie, HasKeys trie keys →
      (∃ answer, isSubscribed trie.root topic = .ok answer ∧
        (answer = true ↔ ∃ k ∈ keys, isSubscribed (alone k).root topic = .ok true)) ∧
      (∀ key value trie', IsTopic key → trie.info.dataSize ≤ value.length → trieInsert trie key value = .ok trie' →
        isSubscribed trie.root topic = .ok true → isSubscribed trie'.root topic = .ok true) ∧
      ∀ key trie', IsTopic key → trieRemove trie key = .ok trie' →
        (isSubscribed trie'.root topic = .ok true ↔
          ∃ k ∈ keys, k ≠ key ∧ isSubscribed (alone k).root topic = .ok true) := by
  have hone : ∀ k ∈ keys, (isSubscribed (alone k).root topic = .ok true ↔ k ∈ patterns topic) :=
    fun k hk => (halone k hk).isSubscribed_singleton htopic
  refine ⟨HasKeys.exists_trie hkeys,fun trie h => ⟨?_,?_,?_⟩⟩
  · refine ⟨_,isSubscribed_topic trie.root htopic,?_⟩
    have htrue := h.isSubscribed_true_iff htopic
    rw [isSubscribed_topic trie.root htopic,Except.ok.injEq] at htrue
    rw [htrue]
    exact exists_congr fun k => and_congr_right fun hk => (hone k hk).symm
  · intro key value trie' hkey hvalue hrun haccept
    have hop : (TrieOp.insert key value).Proper topicAlphabet trie.info.dataSize := ⟨hkey,hvalue⟩
    have h' := h.apply hop hrun
    obtain ⟨k,hk,hpattern⟩ := (h.isSubscribed_true_iff htopic).mp haccept
    exact (h'.isSubscribed_true_iff htopic).mpr ⟨k,Finset.mem_insert_of_mem hk,hpattern⟩
  · intro key trie' hkey hrun
    have hop : (TrieOp.remove key).Proper topicAlphabet trie.info.dataSize := hkey
    have h' := h.apply hop hrun
    rw [h'.isSubscribed_true_iff htopic]
    refine exists_congr fun k => ?_
    rw [TrieOp.update,Finset.mem_erase,and_comm (a := k ≠ key),and_assoc]
    exact and_congr_right fun hk => and_congr_right fun _ => (hone k hk).symm

/-- Two subscriptions and a topic with an empty level. -/
theorem isSubscribed_independent_empty : ∃ trie plusTrie starTrie : Trie topicAlphabet.length,
    HasKeys trie {chars "a/+",chars "*"} ∧ HasKeys plusTrie {chars "a/+"} ∧ HasKeys starTrie {chars "*"} ∧
    (isSubscribed trie.root (chars "a/") = .ok true ↔ ∃ k ∈ ({chars "a/+",chars "*"} : Finset (List UInt8)),
      isSubscribed (if k = chars "a/+" then plusTrie else starTrie).root (chars "a/") = .ok true) := by
  have hkeys : ∀ k ∈ ({chars "a/+",chars "*"} : Finset (List UInt8)), IsTopic k := by decide +kernel
  have htopic : IsTopic (chars "a/") := by decide +kernel
  obtain ⟨plusTrie,hplus⟩ := @HasKeys.exists_trie {chars "a/+"} (by decide +kernel)
  obtain ⟨starTrie,hstar⟩ := @HasKeys.exists_trie {chars "*"} (by decide +kernel)
  have halone : ∀ k ∈ ({chars "a/+",chars "*"} : Finset (List UInt8)),
      HasKeys (if k = chars "a/+" then plusTrie else starTrie) {k} := by
    intro k hk
    rcases Finset.mem_insert.mp hk with rfl | hk
    · rwa [if_pos rfl]
    · rw [Finset.mem_singleton.mp hk,if_neg (by decide)]
      exact hstar
  obtain ⟨⟨trie,h⟩,hall⟩ := isSubscribed_independent hkeys halone htopic
  obtain ⟨⟨answer,hrun,hiff⟩,-,-⟩ := hall trie h
  refine ⟨trie,plusTrie,starTrie,h,hplus,hstar,?_⟩
  rw [← hiff,hrun,Except.ok.injEq]

end ClientServerApp
