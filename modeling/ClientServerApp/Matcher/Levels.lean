import ClientServerApp.Matcher.Patterns
import ClientServerApp.Trie.History
import ClientServerApp.Library.LevelPattern

/-! On topics without empty levels the patterns tried by the matcher are exactly those that match
level by level. -/
namespace ClientServerApp
open OrderedSearch LevelPattern

/-- The levels of a topic or of a pattern. -/
def levels (topic : List UInt8) : List (List UInt8) := topic.splitOn slash

/-- The levels after a boundary between levels. -/
def restLevels : List UInt8 → List (List UInt8)
  | [] => []
  | _ :: rest => levels rest

/-- The place between two levels, or the end. -/
def Boundary (s : List UInt8) : Prop := s = [] ∨ ∃ rest, s = slash :: rest

/-- The pattern matches the topic level by level. -/
def MatchesTopic (pattern topic : List UInt8) : Prop := Matches [plus] [star] (levels pattern) (levels topic)

lemma boundary_skipLevel (topic : List UInt8) : Boundary (skipLevel topic) := by
  induction topic with
  | nil => exact .inl rfl
  | cons c topic ih =>
    by_cases hc : c = slash
    · subst c
      exact .inr ⟨topic,by simp [skipLevel]⟩
    · simpa [skipLevel,hc] using ih

lemma slash_not_mem_firstLevel (topic : List UInt8) : slash ∉ firstLevel topic := by
  intro h
  simpa using List.mem_takeWhile_imp h

/-- A level in front of a boundary is recovered by splitting there. -/
lemma eq_append_iff {a s q : List UInt8} (ha : slash ∉ a) (hs : Boundary s) :
    q = a ++ s ↔ firstLevel q = a ∧ skipLevel q = s := by
  constructor
  · rintro rfl
    have hp : ∀ x ∈ a, (decide (x ≠ slash)) = true := by
      intro x hx
      have hne : x ≠ slash := fun he => ha (he ▸ hx)
      simpa using hne
    rw [firstLevel,skipLevel,List.takeWhile_append_of_pos hp,List.dropWhile_append_of_pos hp]
    rcases hs with rfl | ⟨rest,rfl⟩ <;> simp
  · rintro ⟨rfl,rfl⟩
    exact (firstLevel_append_skipLevel q).symm

lemma levels_eq (topic : List UInt8) : levels topic = firstLevel topic :: restLevels (skipLevel topic) := by
  have hn := slash_not_mem_firstLevel topic
  conv_lhs => rw [← firstLevel_append_skipLevel topic]
  rcases boundary_skipLevel topic with h | ⟨rest,h⟩
  · rw [h,List.append_nil,levels,List.splitOn_eq_singleton hn]
    rfl
  · rw [h,levels,List.splitOn_append_cons_self_of_not_mem hn]
    rfl

lemma boundary_of_mem_patterns {s q : List UInt8} (hs : Boundary s) (hq : q ∈ patterns s) : Boundary q := by
  rcases hs with rfl | ⟨rest,rfl⟩
  · exact .inl (by simpa using hq)
  · rw [patterns_slash,List.mem_map] at hq
    obtain ⟨q',-,rfl⟩ := hq
    exact .inr ⟨q',rfl⟩

lemma boundary_of_mem_starRests {topic r : List UInt8} (h : r ∈ starRests topic) : Boundary r := by
  induction topic using starRests.induct with
  | case1 => simp [starRests] at h
  | case2 c topic ih =>
    rw [starRests,List.mem_cons] at h
    rcases h with rfl | h
    · exact boundary_skipLevel _
    · exact ih h

/-- The three ways in which a pattern is tried at one level. -/
lemma mem_levelPatterns {q topic : List UInt8} : q ∈ levelPatterns topic ↔
    ((firstLevel q = [plus] ∨ firstLevel q = firstLevel topic) ∧ skipLevel q ∈ patterns (skipLevel topic)) ∨
      (firstLevel q = [star] ∧ ∃ r ∈ starRests topic, skipLevel q ∈ patterns r) := by
  -- a tail after a level `a` is the part of `q` after its first level
  have split : ∀ {a s : List UInt8}, slash ∉ a → Boundary s →
      ((∃ q' ∈ patterns s, a ++ q' = q) ↔ firstLevel q = a ∧ skipLevel q ∈ patterns s) := by
    intro a s ha hs
    constructor
    · rintro ⟨q',hq',rfl⟩
      obtain ⟨h1,h2⟩ := (eq_append_iff ha (boundary_of_mem_patterns hs hq')).mp rfl
      exact ⟨h1,by rwa [h2]⟩
    · rintro ⟨rfl,h⟩
      exact ⟨_,h,firstLevel_append_skipLevel q⟩
  have hp := split (a := [plus]) (s := skipLevel topic) (by decide) (boundary_skipLevel topic)
  have hl := split (slash_not_mem_firstLevel topic) (boundary_skipLevel topic)
  have hs : (∃ r ∈ starRests topic, ∃ q' ∈ patterns r, star :: q' = q) ↔
      firstLevel q = [star] ∧ ∃ r ∈ starRests topic, skipLevel q ∈ patterns r := by
    constructor
    · rintro ⟨r,hr,h⟩
      obtain ⟨h1,h2⟩ := (split (a := [star]) (by decide) (boundary_of_mem_starRests hr)).mp h
      exact ⟨h1,r,hr,h2⟩
    · rintro ⟨h1,r,hr,h2⟩
      exact ⟨r,hr,(split (a := [star]) (by decide) (boundary_of_mem_starRests hr)).mpr ⟨h1,h2⟩⟩
  simp only [levelPatterns,List.mem_append,List.mem_map,List.mem_flatMap]
  change ((∃ q' ∈ _,[plus] ++ q' = q) ∨ _) ∨ _ ↔ _
  rw [hp,hl,hs,or_right_comm,← or_and_right]

/-- From a boundary on, the `*` loop reaches the ends of all later levels. -/
lemma starRests_suffixes {s : List UInt8} (hs : Boundary s) :
    (∀ r ∈ starRests s, ∃ l, l :: restLevels r <:+ restLevels s) ∧
    (∀ l ls, l :: ls <:+ restLevels s → ∃ r ∈ starRests s, restLevels r = ls) := by
  induction h : s.length using Nat.strong_induction_on generalizing s with
  | _ n ih =>
    rcases hs with rfl | ⟨rest,rfl⟩
    · simp [starRests,restLevels]
    · have hle := skipLevel_length_le rest
      rw [List.length_cons] at h
      obtain ⟨hsub,hsup⟩ := ih _ (by omega) (boundary_skipLevel rest) rfl
      have hrest : restLevels (slash :: rest) = firstLevel rest :: restLevels (skipLevel rest) :=
        levels_eq rest
      have hstar : starRests (slash :: rest) = skipLevel rest :: starRests (skipLevel rest) := by
        rw [starRests,if_pos rfl]
      rw [hrest,hstar]
      constructor
      · intro r hr
        rcases List.mem_cons.mp hr with rfl | hr
        · exact ⟨_,List.suffix_rfl⟩
        · obtain ⟨l,hl⟩ := hsub r hr
          exact ⟨l,hl.trans (List.suffix_cons _ _)⟩
      · intro l ls hl
        rcases List.suffix_cons_iff.mp hl with hl | hl
        · cases hl
          exact ⟨_,List.mem_cons_self,rfl⟩
        · obtain ⟨r,hr,he⟩ := hsup l ls hl
          exact ⟨r,List.mem_cons_of_mem _ hr,he⟩

/-- When the first level is not empty, the `*` loop reaches its end and those of all later ones. -/
lemma exists_mem_starRests {topic : List UInt8} (hne : firstLevel topic ≠ []) (P : List (List UInt8) → Prop) :
    (∃ r ∈ starRests topic, P (restLevels r)) ↔ ∃ ls, ls <:+ restLevels (skipLevel topic) ∧ P ls := by
  have hstar : starRests topic = skipLevel topic :: starRests (skipLevel topic) := by
    cases topic with
    | nil => exact absurd rfl hne
    | cons c topic =>
      have hc : c ≠ slash := by
        rintro rfl
        exact hne (by simp [firstLevel])
      rw [starRests,if_neg hc]
  obtain ⟨hsub,hsup⟩ := starRests_suffixes (boundary_skipLevel topic)
  rw [hstar]
  constructor
  · rintro ⟨r,hr,hp⟩
    rcases List.mem_cons.mp hr with rfl | hr
    · exact ⟨_,List.suffix_rfl,hp⟩
    · obtain ⟨l,hl⟩ := hsub r hr
      exact ⟨_,(List.suffix_cons _ _).trans hl,hp⟩
  · rintro ⟨ls,hls,hp⟩
    rcases hls with ⟨pre,hpre⟩
    rcases List.eq_nil_or_concat pre with rfl | ⟨pre,l,rfl⟩
    · exact ⟨_,List.mem_cons_self,by rwa [← hpre]⟩
    · obtain ⟨r,hr,he⟩ := hsup l ls ⟨pre,by simpa using hpre⟩
      exact ⟨r,List.mem_cons_of_mem _ hr,by rwa [he]⟩

/-- The patterns from a level on are those that match the remaining levels. -/
lemma mem_levelPatterns_iff_matches {q topic : List UInt8} (hlevels : ∀ l ∈ levels topic, l ≠ []) :
    q ∈ levelPatterns topic ↔ MatchesTopic q topic := by
  induction h : topic.length using Nat.strong_induction_on generalizing q topic with
  | _ n ih =>
    rw [levels_eq] at hlevels
    have hfirst : firstLevel topic ≠ [] := hlevels _ (by simp)
    have hrest : ∀ l ∈ restLevels (skipLevel topic), l ≠ [] := fun l hl => hlevels l (by simp [hl])
    have hlt : (skipLevel topic).length < topic.length := by
      conv_rhs => rw [← firstLevel_append_skipLevel topic,List.length_append]
      have := List.length_pos_of_ne_nil hfirst
      omega
    -- after a boundary, by induction
    have tail : ∀ s, Boundary s → s.length < topic.length → (∀ l ∈ restLevels s, l ≠ []) →
        (skipLevel q ∈ patterns s ↔ Matches [plus] [star] (restLevels (skipLevel q)) (restLevels s)) := by
      intro s hs hlen hne
      rcases hs with rfl | ⟨rest,rfl⟩
      · rw [patterns_nil,List.mem_singleton]
        rcases boundary_skipLevel q with hq | ⟨q',hq⟩
        · rw [hq]
          simp [restLevels]
        · have hne : levels q' ≠ [] := List.splitOn_ne_nil slash q'
          rw [hq]
          simp [restLevels,hne]
      · rw [List.length_cons] at hlen
        rcases boundary_skipLevel q with hq | ⟨q',hq⟩
        · rw [hq,patterns_slash,restLevels,restLevels,levels_eq rest]
          simp
        · rw [hq,patterns_slash]
          have hq' := ih rest.length (by omega) (q := q') hne rfl
          simpa [restLevels,MatchesTopic] using hq'
    have hstar : (∃ r ∈ starRests topic, skipLevel q ∈ patterns r) ↔
        ∃ r ∈ starRests topic, Matches [plus] [star] (restLevels (skipLevel q)) (restLevels r) := by
      refine exists_congr fun r => and_congr_right fun hr => ?_
      refine tail r (boundary_of_mem_starRests hr) (length_lt_of_mem_starRests hr) fun l hl => ?_
      obtain ⟨ls,hls,hmem⟩ := (exists_mem_starRests hfirst (l ∈ ·)).mp ⟨r,hr,hl⟩
      exact hrest l (hls.subset hmem)
    rw [mem_levelPatterns,MatchesTopic,levels_eq q,levels_eq topic,matches_cons_iff,hstar,
      tail _ (boundary_skipLevel topic) hlt hrest,exists_mem_starRests hfirst]

/-- A nonempty topic does not start with an empty level unless it starts with `/`. -/
lemma patterns_eq_levelPatterns {topic : List UInt8} (h : firstLevel topic ≠ []) :
    patterns topic = levelPatterns topic := by
  cases topic with
  | nil => exact absurd rfl h
  | cons c topic =>
    refine patterns_cons ?_ topic
    rintro rfl
    exact h (by simp [firstLevel])

theorem mem_patterns_iff_matches {q topic : List UInt8} (hlevels : ∀ l ∈ levels topic, l ≠ []) :
    q ∈ patterns topic ↔ MatchesTopic q topic := by
  have hfirst : firstLevel topic ≠ [] := hlevels _ (by simp [levels_eq])
  rw [patterns_eq_levelPatterns hfirst,mem_levelPatterns_iff_matches hlevels]

end ClientServerApp
