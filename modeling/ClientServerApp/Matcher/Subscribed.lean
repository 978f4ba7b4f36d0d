import ClientServerApp.Matcher.Levels

/-! What `is_subscribed` answers on a subscription trie, and on which topics it stays inside the
arrays of children. -/
namespace ClientServerApp
open OrderedSearch LevelPattern TrieNode

/-- A pattern that matches a topic is spelled with the letters of the topic, `/`, `+` and `*`. -/
lemma mem_of_mem_patterns {topic q : List UInt8} (hq : q ∈ patterns topic) {c : UInt8} (hc : c ∈ q) :
    c ∈ topic ∨ c = slash ∨ c = plus ∨ c = star := by
  have hlevel : ∀ u : List UInt8,
      (∀ r, NestedRest u r → ∀ q ∈ patterns r, c ∈ q → c ∈ r ∨ c = slash ∨ c = plus ∨ c = star) →
      ∀ q ∈ levelPatterns u, c ∈ q → c ∈ u ∨ c = slash ∨ c = plus ∨ c = star := by
    intro u ih q hq hc
    rw [← firstLevel_append_skipLevel q,List.mem_append] at hc
    rcases mem_levelPatterns.mp hq with ⟨hf,hq'⟩ | ⟨hf,r,hr,hq'⟩
    · rcases hc with hc | hc
      · rcases hf with hf | hf
        · rw [hf,List.mem_singleton] at hc
          exact .inr (.inr (.inl hc))
        · rw [hf] at hc
          exact .inl ((List.takeWhile_prefix _).subset hc)
      · have hn : NestedRest u (skipLevel u) := .inl rfl
        exact (ih _ hn _ hq' hc).imp_left (hn.suffix.subset ·)
    · rcases hc with hc | hc
      · rw [hf,List.mem_singleton] at hc
        exact .inr (.inr (.inr hc))
      · have hn : NestedRest u r := .inr hr
        exact (ih _ hn _ hq' hc).imp_left (hn.suffix.subset ·)
  induction topic using nestedInduction generalizing q with
  | nil =>
    rw [patterns_nil,List.mem_singleton] at hq
    simp [hq] at hc
  | crossing rest ih =>
    rw [patterns_slash,List.mem_map] at hq
    obtain ⟨q',hq',rfl⟩ := hq
    rcases List.mem_cons.mp hc with rfl | hc
    · exact .inr (.inl rfl)
    · exact (hlevel rest (fun r hr q hq hc => ih r hr hq hc) q' hq' hc).imp_left (List.mem_cons_of_mem _)
  | level d rest hd ih =>
    rw [patterns_cons hd] at hq
    exact hlevel _ (fun r hr q hq hc => ih r hr hq hc) q hq hc

lemma isTopic_of_mem_patterns {topic q : List UInt8} (htopic : IsTopic topic) (hq : q ∈ patterns topic) :
    IsTopic q := by
  intro c hc
  rcases mem_of_mem_patterns hq hc with h | rfl | rfl | rfl
  · exact htopic c h
  · decide
  · decide
  · decide

/-- The letters of a pattern before the first one that is not in the alphabet. -/
def knownPart (q : List UInt8) : List UInt8 := q.takeWhile (· ∈ topicAlphabet)

section Walk
variable (node : TopicNode) (q : List UInt8)

/-- Walking a word over the alphabet answers whether it is in the trie. -/
lemma walk_topic (hq : IsTopic q) : walk node q = .ok (node.contentAt q).1 := by
  induction q generalizing node with
  | nil => rfl
  | cons c q ih =>
    obtain ⟨i,hi⟩ := exists_slot (hq c (by simp))
    rw [walk_cons node hi,contentAt_cons hi]
    cases node.children i with
    | none => rfl
    | some t => exact ih t (fun d hd => hq d (by simp [hd]))

lemma walk_true_iff : walk node q = .ok true ↔ node.Stores q := by
  induction q generalizing node with
  | nil => simp [walk,Stores]
  | cons c q ih =>
    by_cases hc : c ∈ topicAlphabet
    · obtain ⟨i,hi⟩ := exists_slot hc
      rw [walk_cons node hi,Stores,contentAt_cons hi]
      cases node.children i with
      | none => simp
      | some t => exact ih t
    · rw [walk_foreign node hc,Stores,contentAt_cons_foreign node hc]
      simp

/-- A walk leaves the array of children exactly when the letters before the first foreign one
lead to a node. -/
lemma walk_error_iff : (∃ e, walk node q = .error e) ↔ ¬ IsTopic q ∧ (node.descend (knownPart q)).isSome := by
  induction q generalizing node with
  | nil => simp [walk,IsTopic]
  | cons c q ih =>
    by_cases hc : c ∈ topicAlphabet
    · obtain ⟨i,hi⟩ := exists_slot hc
      have ht : IsTopic (c :: q) ↔ IsTopic q := by simp [IsTopic,hc]
      have hk : knownPart (c :: q) = c :: knownPart q := by simp [knownPart,hc]
      rw [walk_cons node hi,ht,hk]
      simp only [descend,hi,Option.bind_some]
      cases node.children i with
      | none => simp
      | some t => exact ih t
    · have ht : ¬ IsTopic (c :: q) := fun h => hc (h c (by simp))
      have hk : knownPart (c :: q) = [] := by simp [knownPart,hc]
      rw [walk_foreign node hc,hk]
      simp [ht,descend]

/-- The nodes of a well formed trie are the root and the prefixes of its keys. -/
lemma descend_isSome_iff {node : TopicNode} (h : node.WellFormed) (u : List UInt8) :
    (node.descend u).isSome ↔ u = [] ∨ ∃ key, node.Stores key ∧ u <+: key := by
  induction u generalizing node with
  | nil => simp [descend]
  | cons c u ih =>
    have hne : ¬ c :: u = [] := by simp
    rw [or_iff_right hne]
    by_cases hc : c ∈ topicAlphabet
    · obtain ⟨i,hi⟩ := exists_slot hc
      simp only [descend,hi,Option.bind_some]
      cases ht : node.children i with
      | none =>
        simp only [Option.bind_none,Option.isSome_none,Bool.false_eq_true,false_iff,not_exists,not_and]
        rintro key hkey ⟨tail,rfl⟩
        rw [Stores,List.cons_append,contentAt_cons hi,ht] at hkey
        simp at hkey
      | some t =>
        have hstores : ∀ key, node.Stores (c :: key) ↔ t.Stores key := by
          intro key
          rw [Stores,contentAt_cons hi,ht]
          rfl
        rw [Option.bind_some,ih (h.child ht)]
        constructor
        · rintro (rfl | ⟨key,hkey,hpre⟩)
          · obtain ⟨key,hkey⟩ := h.child_live ht
            exact ⟨c :: key,(hstores key).mpr hkey,by simp⟩
          · exact ⟨c :: key,(hstores key).mpr hkey,by simpa using hpre⟩
        · rintro ⟨key,hkey,tail,rfl⟩
          exact .inr ⟨u ++ tail,(hstores _).mp hkey,List.prefix_append u tail⟩
    · have hslot : topicAlphabet.finIdxOf? c = none := List.finIdxOf?_eq_none_iff.mpr hc
      simp only [descend,hslot,Option.bind_none,Option.isSome_none,Bool.false_eq_true,false_iff,
        not_exists,not_and]
      rintro key hkey ⟨tail,rfl⟩
      rw [Stores,List.cons_append,contentAt_cons_foreign node hc] at hkey
      simp at hkey

end Walk

/-- On a topic over the alphabet the matcher answers whether one of its patterns is stored. -/
theorem isSubscribed_topic (node : TopicNode) {topic : List UInt8} (htopic : IsTopic topic) :
    isSubscribed node topic = .ok ((patterns topic).any fun q => (node.contentAt q).1) := by
  rw [isSubscribed_eq]
  exact search_total fun q hq => walk_topic node q (isTopic_of_mem_patterns htopic hq)

/-- On a topic without empty levels it answers whether a stored key matches level by level. -/
theorem isSubscribed_levels (node : TopicNode) {topic : List UInt8} (htopic : IsTopic topic)
    (hlevels : ∀ l ∈ levels topic, l ≠ []) :
    ∃ answer, isSubscribed node topic = .ok answer ∧
      (answer = true ↔ ∃ key, node.Stores key ∧ MatchesTopic key topic) := by
  refine ⟨_,isSubscribed_topic node htopic,?_⟩
  rw [List.any_eq_true]
  refine exists_congr fun q => ?_
  rw [mem_patterns_iff_matches hlevels,and_comm]
  rfl

/-- A pattern leads the search out of the arrays: it has a foreign letter, and the letters before
it are none or start one of the keys. -/
def LeavesTrie (keys : Finset (List UInt8)) (q : List UInt8) : Prop :=
  ¬ IsTopic q ∧ (knownPart q = [] ∨ ∃ key ∈ keys, knownPart q <+: key)

/-- The search is answered exactly when no pattern that leaves the trie is tried before the first
stored one. -/
theorem isSubscribed_isOk_iff {node : TopicNode} (h : node.WellFormed) {keys : Finset (List UInt8)}
    (hkeys : ∀ k, node.Stores k ↔ k ∈ keys) (topic : List UInt8) :
    (∃ answer, isSubscribed node topic = .ok answer) ↔
      ∀ before q after, patterns topic = before ++ q :: after → (∀ p ∈ before, p ∉ keys) →
        ¬ LeavesTrie keys q := by
  rw [isSubscribed_eq]
  refine search_isOk_iff (fun q _ => (walk_true_iff node q).trans (hkeys q)) fun q _ => ?_
  rw [walk_error_iff,descend_isSome_iff h,LeavesTrie]
  simp only [hkeys]

/-- Wildcard matching: after any calls of the trie functions with words over the alphabet, a topic
without empty levels is accepted exactly when a current key matches it level by level. -/
theorem isSubscribed_matching {dataSize : ℕ} {ops : List TrieOp}
    (hops : ∀ op ∈ ops, op.Proper topicAlphabet dataSize) {topic : List UInt8} (htopic : IsTopic topic)
    (hlevels : ∀ l ∈ levels topic, l ≠ []) :
    ∃ trie answer, trieAfter dataSize topicAlphabet ops = .ok trie ∧
      isSubscribed trie.root topic = .ok answer ∧
      (answer = true ↔ ∃ key ∈ keysAfter ops, MatchesTopic key topic) := by
  obtain ⟨trie,hrun,-,hkeys⟩ := trieAfter_spec hops
  obtain ⟨answer,hanswer,hiff⟩ := isSubscribed_levels trie.root htopic hlevels
  refine ⟨trie,answer,hrun,hanswer,hiff.trans (exists_congr fun key => ?_)⟩
  rw [← hkeys]
  rfl

/-- The calls `subscribe a/+` and `subscribe *` with the published topic `a/b`. -/
theorem isSubscribed_matching_plus :
    ∃ trie answer, trieAfter 1 topicAlphabet [.insert (chars "a/+") (chars "T"),.insert (chars "*") (chars "T")] =
        .ok trie ∧
      isSubscribed trie.root (chars "a/b") = .ok answer ∧
      (answer = true ↔ ∃ key ∈ keysAfter [.insert (chars "a/+") (chars "T"),.insert (chars "*") (chars "T")],
        MatchesTopic key (chars "a/b")) := by
  refine isSubscribed_matching ?_ (by decide +kernel) ?_
  · intro op hop
    fin_cases hop
    · exact ⟨by decide +kernel,by decide⟩
    · exact ⟨by decide +kernel,by decide⟩
  · have hl : levels (chars "a/b") = [chars "a",chars "b"] := rfl
    rw [hl]
    decide

/-- Index safety: the matcher stays inside the arrays of children and answers exactly when no
pattern that leaves the trie is tried before the first stored one. -/
theorem isSubscribed_indexSafe_iff {dataSize : ℕ} {ops : List TrieOp}
    (hops : ∀ op ∈ ops, op.Proper topicAlphabet dataSize) (topic : List UInt8) :
    ∃ trie, trieAfter dataSize topicAlphabet ops = .ok trie ∧
      ((∃ answer, isSubscribed trie.root topic = .ok answer) ↔
        ∀ before q after, patterns topic = before ++ q :: after →
          (∀ p ∈ before, p ∉ keysAfter ops) → ¬ LeavesTrie (keysAfter ops) q) := by
  obtain ⟨trie,hrun,hvalid,hkeys⟩ := trieAfter_spec hops
  exact ⟨trie,hrun,isSubscribed_isOk_iff hvalid.wellFormed hkeys topic⟩

/-- The second letter of the published topic `a b` is foreign. With the subscription `x/y` the matcher does not get
there, and it answers. -/
theorem isSubscribed_indexSafe_space :
    ∃ trie, trieAfter 1 topicAlphabet [.insert (chars "x/y") (chars "T")] = .ok trie ∧
      ∃ answer, isSubscribed trie.root (chars "a b") = .ok answer := by
  have hops : ∀ op ∈ [TrieOp.insert (chars "x/y") (chars "T")], op.Proper topicAlphabet 1 := by
    intro op hop
    fin_cases hop
    exact ⟨by decide +kernel,by decide⟩
  obtain ⟨trie,hrun,hiff⟩ := isSubscribed_indexSafe_iff hops (chars "a b")
  have hkeys : keysAfter [.insert (chars "x/y") (chars "T")] = {chars "x/y"} := by decide +kernel
  have hinside : ∀ q ∈ patterns (chars "a b"), ¬ LeavesTrie {chars "x/y"} q := by
    simp only [LeavesTrie,Finset.mem_singleton,exists_eq_left]
    decide +kernel
  refine ⟨trie,hrun,hiff.mpr fun before q after hsplit _ => ?_⟩
  rw [hkeys]
  exact hinside q (by rw [hsplit]; simp)

/-- With the subscription `a/b` the published topic `a b` makes the matcher read far outside an
array of children. -/
theorem isSubscribed_space_undefined :
    ∃ trie, trieAfter 1 topicAlphabet [.insert (chars "a/b") (chars "T")] = .ok trie ∧
      isSubscribed trie.root (chars "a b") = .error .undefined := ⟨_,rfl,rfl⟩

end ClientServerApp
