import ClientServerApp.Matcher.Independence

/-! Which patterns accept a topic, whatever empty levels it has. -/
namespace ClientServerApp
open LevelPattern

/-- The pattern accepts the topic: an empty first level by an empty level only, and an empty level further on not by
a `*` that stands for it alone. -/
def AcceptsTopic (pattern topic : List UInt8) : Prop :=
  (firstLevel topic = [] → firstLevel pattern = []) ∧ Accepts [plus] [star] [] (levels pattern) (levels topic)

lemma boundary_of_firstLevel {topic : List UInt8} (h : firstLevel topic = []) : skipLevel topic = topic := by
  have happend := firstLevel_append_skipLevel topic
  rwa [h,List.nil_append] at happend

/-- What is left of the levels after the `*` loop. -/
lemma exists_mem_starRests_iff (topic : List UInt8) (P : List (List UInt8) → Prop) :
    (∃ r ∈ starRests topic, P (restLevels r)) ↔
      ∃ ls, ls <:+ restLevels (skipLevel topic) ∧ (firstLevel topic = [] → ls ≠ restLevels (skipLevel topic)) ∧
        P ls := by
  by_cases hempty : firstLevel topic = []
  · have hsame := boundary_of_firstLevel hempty
    obtain ⟨hsub,hsup⟩ := starRests_suffixes (hsame ▸ boundary_skipLevel topic : Boundary topic)
    rw [hsame]
    constructor
    · rintro ⟨r,hr,hp⟩
      obtain ⟨l,hl⟩ := hsub r hr
      refine ⟨_,(List.suffix_cons _ _).trans hl,fun _ heq => ?_,hp⟩
      have hlength := hl.length_le
      rw [heq,List.length_cons] at hlength
      omega
    · rintro ⟨ls,⟨pre,hpre⟩,hne,hp⟩
      obtain rfl | ⟨pre,l,rfl⟩ := List.eq_nil_or_concat' pre
      · exact absurd hpre (hne hempty)
      · obtain ⟨r,hr,rfl⟩ := hsup l ls ⟨pre,by simpa using hpre⟩
        exact ⟨r,hr,hp⟩
  · rw [exists_mem_starRests hempty]
    simp only [hempty,false_implies,true_and]

lemma boundary_iff (q : List UInt8) : Boundary q ↔ firstLevel q = [] := by
  constructor
  · rintro (rfl | ⟨rest,rfl⟩)
    · rfl
    · simp [firstLevel]
  · intro h
    exact boundary_of_firstLevel h ▸ boundary_skipLevel q

/-- After a boundary the next level decides. -/
lemma mem_patterns_boundary {q s : List UInt8} (hs : Boundary s)
    (hrest : ∀ rest, s = slash :: rest → ∀ q', q' ∈ levelPatterns rest ↔
      Accepts [plus] [star] [] (levels q') (levels rest)) :
    q ∈ patterns s ↔ Boundary q ∧ Accepts [plus] [star] [] (restLevels q) (restLevels s) := by
  rcases hs with rfl | ⟨rest,rfl⟩
  · rw [patterns_nil,List.mem_singleton]
    constructor
    · rintro rfl
      exact ⟨.inl rfl,.nil⟩
    · rintro ⟨rfl | ⟨q',rfl⟩,h⟩
      · rfl
      · exact absurd (accepts_nil_iff.mp h) (List.splitOn_ne_nil slash q')
  · rw [patterns_slash,List.mem_map]
    constructor
    · rintro ⟨q',hq',rfl⟩
      exact ⟨.inr ⟨q',rfl⟩,(hrest rest rfl q').mp hq'⟩
    · rintro ⟨rfl | ⟨q',rfl⟩,h⟩
      · rw [restLevels,restLevels,levels_eq] at h
        exact absurd h not_accepts_nil_cons
      · exact ⟨q',(hrest rest rfl q').mpr h,rfl⟩

/-- From the start of a level on the matcher tries exactly the patterns that accept the levels. -/
theorem mem_levelPatterns_iff_accepts {q topic : List UInt8} :
    q ∈ levelPatterns topic ↔ Accepts [plus] [star] [] (levels q) (levels topic) := by
  induction h : topic.length using Nat.strong_induction_on generalizing q topic with
  | _ n ih =>
    have tail : ∀ s, Boundary s → s.length ≤ topic.length →
        (skipLevel q ∈ patterns s ↔ Accepts [plus] [star] [] (restLevels (skipLevel q)) (restLevels s)) := by
      intro s hs hlen
      rw [mem_patterns_boundary hs,and_iff_right (boundary_skipLevel q)]
      rintro rest rfl q'
      rw [List.length_cons] at hlen
      exact ih rest.length (by omega) rfl
    have hstar : (∃ r ∈ starRests topic, skipLevel q ∈ patterns r) ↔
        ∃ r ∈ starRests topic, Accepts [plus] [star] [] (restLevels (skipLevel q)) (restLevels r) :=
      exists_congr fun r => and_congr_right fun hr =>
        tail r (boundary_of_mem_starRests hr) (length_lt_of_mem_starRests hr).le
    rw [mem_levelPatterns,levels_eq q,levels_eq topic,accepts_cons_iff (by decide),hstar,
      tail _ (boundary_skipLevel topic) (skipLevel_length_le topic),exists_mem_starRests_iff]

/-- An empty first level is accepted by an empty one. -/
lemma accepts_empty_first {q topic : List UInt8} (hq : firstLevel q = []) (htopic : firstLevel topic = []) :
    Accepts [plus] [star] [] (levels q) (levels topic) ↔
      Accepts [plus] [star] [] (restLevels q) (restLevels topic) := by
  rw [levels_eq q,levels_eq topic,hq,htopic,accepts_cons_iff (by decide),boundary_of_firstLevel hq,
    boundary_of_firstLevel htopic]
  simp

/-- The patterns of a topic are those that accept it. -/
theorem mem_patterns_iff_accepts {q topic : List UInt8} : q ∈ patterns topic ↔ AcceptsTopic q topic := by
  rw [AcceptsTopic]
  by_cases hempty : firstLevel topic = []
  · rw [mem_patterns_boundary ((boundary_iff topic).mpr hempty) fun _ _ _ => mem_levelPatterns_iff_accepts,
      boundary_iff,forall_prop_of_true hempty]
    exact and_congr_right fun hq => (accepts_empty_first hq hempty).symm
  · rw [patterns_eq_levelPatterns hempty,mem_levelPatterns_iff_accepts]
    simp only [hempty,false_implies,true_and]

instance (pattern topic : List UInt8) : Decidable (AcceptsTopic pattern topic) :=
  decidable_of_iff ((patterns topic).contains pattern = true) (List.contains_iff_mem.trans mem_patterns_iff_accepts)

/-- After any calls of the trie functions with words over the alphabet and for every topic over it, also with empty
levels, the matcher answers whether a current key accepts the topic. It never accepts what does not match level by
level, and what matches is lost only to an empty first level or to a `*` in the key. -/
theorem isSubscribed_exact {dataSize : ℕ} {ops : List TrieOp} (hops : ∀ op ∈ ops, op.Proper topicAlphabet dataSize)
    {topic : List UInt8} (htopic : IsTopic topic) :
    ∃ trie answer, trieAfter dataSize topicAlphabet ops = .ok trie ∧ isSubscribed trie.root topic = .ok answer ∧
      (answer = true ↔ ∃ key ∈ keysAfter ops, AcceptsTopic key topic) ∧
      (answer = true → ∃ key ∈ keysAfter ops, MatchesTopic key topic) ∧
      ∀ key ∈ keysAfter ops, MatchesTopic key topic → (firstLevel topic = [] → firstLevel key = []) →
        [star] ∉ levels key → answer = true := by
  obtain ⟨trie,hrun,-,hkeys⟩ := trieAfter_spec hops
  have hanswer : ((patterns topic).any fun q => (trie.root.contentAt q).1) = true ↔
      ∃ key ∈ keysAfter ops, AcceptsTopic key topic := by
    rw [List.any_eq_true]
    refine exists_congr fun key => ?_
    rw [mem_patterns_iff_accepts,and_comm,← hkeys]
    rfl
  refine ⟨trie,_,hrun,isSubscribed_topic trie.root htopic,hanswer,fun h => ?_,
    fun key hkey hmatches hfirst hstar => ?_⟩
  · obtain ⟨key,hkey,-,haccepts⟩ := hanswer.mp h
    exact ⟨key,hkey,haccepts.matches⟩
  · exact hanswer.mpr ⟨key,hkey,hfirst,hmatches.accepts (.inl hstar)⟩

/-- The topic `a/` and the subscriptions `a/*` and `a/+`, of which the second accepts it. -/
theorem isSubscribed_exact_empty :
    ∃ trie answer, trieAfter 1 topicAlphabet [.insert (chars "a/*") (chars "T"),.insert (chars "a/+") (chars "T")] =
        .ok trie ∧ isSubscribed trie.root (chars "a/") = .ok answer ∧ answer = true := by
  obtain ⟨trie,answer,hrun,hanswer,-,-,hplain⟩ := @isSubscribed_exact 1
    [.insert (chars "a/*") (chars "T"),.insert (chars "a/+") (chars "T")] (by decide +kernel) (chars "a/")
    (by decide +kernel)
  refine ⟨trie,answer,hrun,hanswer,hplain (chars "a/+") (by decide +kernel) ?_ ?_ ?_⟩
  · exact .text (by decide) (by decide) (.one _ .nil)
  · decide +kernel
  · decide +kernel

end ClientServerApp
