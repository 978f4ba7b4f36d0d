import ClientServerApp.Matcher.Exact

/-! Subscriptions whose levels are replaced by wildcards, and the topics that are lost by that. -/
namespace ClientServerApp
open LevelPattern

/-- Induction on the levels of a topic. -/
theorem levelInduction {P : List UInt8 → Prop} (last : ∀ l, slash ∉ l → P l)
    (level : ∀ l rest, slash ∉ l → P rest → P (l ++ slash :: rest)) (topic : List UInt8) : P topic := by
  induction h : topic.length using Nat.strong_induction_on generalizing topic with
  | _ n ih =>
    rw [← firstLevel_append_skipLevel topic]
    have hfirst := slash_not_mem_firstLevel topic
    rcases boundary_skipLevel topic with hs | ⟨rest,hs⟩
    · rw [hs,List.append_nil]
      exact last _ hfirst
    · have hle := skipLevel_length_le topic
      rw [hs,List.length_cons] at hle
      rw [hs]
      exact level _ _ hfirst (ih rest.length (by omega) rest rfl)

lemma levels_of_not_mem {l : List UInt8} (hl : slash ∉ l) : levels l = [l] := List.splitOn_eq_singleton hl

lemma levels_append {l : List UInt8} (hl : slash ∉ l) (rest : List UInt8) :
    levels (l ++ slash :: rest) = l :: levels rest := List.splitOn_append_cons_self_of_not_mem hl rest

lemma slash_not_mem_level (topic : List UInt8) : ∀ l ∈ levels topic, slash ∉ l := by
  induction topic using levelInduction with
  | last l hl => simpa [levels_of_not_mem hl] using hl
  | level l rest hl ih =>
    rw [levels_append hl]
    exact List.forall_mem_cons.mpr ⟨hl,ih⟩

/-- The pattern with its level `i` widened: `+` in its place, or `*` when it was `+`. -/
def generalised (pattern : List UInt8) (i : ℕ) : List UInt8 :=
  [slash].intercalate ((levels pattern).modify i (widen [plus] [star]))

lemma levels_intercalate {ls : List (List UInt8)} (hls : ∀ l ∈ ls, slash ∉ l) (hne : ls ≠ []) :
    levels ([slash].intercalate ls) = ls := List.splitOn_intercalate slash hls hne

lemma levels_generalised (pattern : List UInt8) (i : ℕ) :
    levels (generalised pattern i) = (levels pattern).modify i (widen [plus] [star]) := by
  apply levels_intercalate
  · intro l hl
    obtain ⟨j,hj⟩ := List.mem_iff_getElem?.mp hl
    rw [List.getElem?_modify] at hj
    obtain ⟨m,hm,rfl⟩ := Option.map_eq_some_iff.mp hj
    have hplain := slash_not_mem_level pattern m (List.mem_of_getElem? hm)
    split_ifs
    · rw [widen]
      split_ifs <;> decide
    · exact hplain
  · rw [← List.length_pos_iff,List.length_modify,levels_eq]
    exact Nat.succ_pos _

/-- What the topic must have for a wider level `i` of the pattern: for the first one a first level that is not empty,
and for a `*` in the place of `+` a run of levels, other than an empty level alone, between levels that the rest of
the pattern accepts. -/
structure Widens (pattern : List UInt8) (i : ℕ) (topic : List UInt8) : Prop where
  first : i = 0 → firstLevel topic ≠ []
  run : (levels pattern)[i]? = some [plus] → ∃ us run vs, levels topic = us ++ (run ++ vs) ∧ run ≠ [] ∧ run ≠ [[]] ∧
    Accepts [plus] [star] [] ((levels pattern).take i) us ∧
    Accepts [plus] [star] [] ((levels pattern).drop (i+1)) vs

section Widened
variable {pattern topic : List UInt8} {i : ℕ}

lemma firstLevel_generalised : firstLevel (generalised pattern i) =
    if i = 0 then widen [plus] [star] (firstLevel pattern) else firstLevel pattern := by
  have hlevels := levels_generalised pattern i
  rw [levels_eq,levels_eq pattern] at hlevels
  cases i with
  | zero => exact (List.cons.inj hlevels).1
  | succ i => exact (List.cons.inj hlevels).1

/-- The wider pattern accepts what the topic has for it. -/
lemma acceptsTopic_generalised_iff (h : AcceptsTopic pattern topic) (hi : (levels pattern)[i]? ≠ some [star]) :
    AcceptsTopic (generalised pattern i) topic ↔ Widens pattern i topic := by
  obtain ⟨hfirst,haccepts⟩ := h
  have hwildcard : widen [plus] [star] (firstLevel pattern) ≠ [] := by
    rw [widen]
    split_ifs <;> decide
  have hfirst' : (firstLevel topic = [] → firstLevel (generalised pattern i) = []) ↔
      (i = 0 → firstLevel topic ≠ []) := by
    rw [firstLevel_generalised]
    split_ifs with hzero
    · simp [hzero,hwildcard]
    · simpa [hzero] using hfirst
  rw [AcceptsTopic,hfirst',levels_generalised]
  by_cases hplus : (levels pattern)[i]? = some [plus]
  · rw [accepts_modify_widen_iff (by decide) hplus]
    constructor
    · intro h
      exact ⟨h.1,fun _ => h.2⟩
    · intro hw
      exact ⟨hw.first,hw.run hplus⟩
  · constructor
    · intro h
      exact ⟨h.1,fun hone => absurd hone hplus⟩
    · intro hw
      exact ⟨hw.first,haccepts.modify_widen hplus hi⟩

/-- A topic without empty levels has it. -/
lemma AcceptsTopic.widens (h : AcceptsTopic pattern topic) (hlevels : [] ∉ levels topic) :
    Widens pattern i topic where
  first _ hempty := hlevels (by rw [levels_eq,hempty]; exact List.mem_cons_self)
  run hplus := h.2.exists_run (by decide) hplus hlevels

end Widened

lemma HasKeys.isSubscribed_iff_accepts {pattern topic : List UInt8} {trie : Trie topicAlphabet.length}
    (h : HasKeys trie {pattern}) (htopic : IsTopic topic) :
    isSubscribed trie.root topic = .ok true ↔ AcceptsTopic pattern topic := by
  rw [h.isSubscribed_singleton htopic,mem_patterns_iff_accepts]

/-- Generalising a subscription: a level of a pattern, other than `*`, is replaced by `+`, or by `*` when it was `+`.
A topic that was accepted is not lost exactly when it has what the wider level takes, and so a topic without empty
levels never is. -/
theorem generalised_accepted_iff {topic pattern : List UInt8} (htopic : IsTopic topic) {i : ℕ}
    (hi : (levels pattern)[i]? ≠ some [star]) {trie trie' : Trie topicAlphabet.length} (h : HasKeys trie {pattern})
    (h' : HasKeys trie' {generalised pattern i}) :
    ((isSubscribed trie.root topic = .ok true → isSubscribed trie'.root topic = .ok true) ↔
      (AcceptsTopic pattern topic → Widens pattern i topic)) ∧
    ([] ∉ levels topic → isSubscribed trie.root topic = .ok true → isSubscribed trie'.root topic = .ok true) := by
  rw [h.isSubscribed_iff_accepts htopic,h'.isSubscribed_iff_accepts htopic]
  refine ⟨forall_congr' fun haccepts => acceptsTopic_generalised_iff haccepts hi,fun hlevels haccepts => ?_⟩
  exact (acceptsTopic_generalised_iff haccepts hi).mpr (haccepts.widens hlevels)

/-- The topic `a//b` has an empty level, and all the same the first level of `a//b` may become `+`. -/
theorem generalised_accepted_plain : ∃ trie trie' : Trie topicAlphabet.length,
    HasKeys trie {chars "a//b"} ∧ HasKeys trie' {chars "+//b"} ∧ generalised (chars "a//b") 0 = chars "+//b" ∧
    isSubscribed trie.root (chars "a//b") = .ok true ∧ isSubscribed trie'.root (chars "a//b") = .ok true := by
  have htopic : IsTopic (chars "a//b") := by decide +kernel
  have hwide : generalised (chars "a//b") 0 = chars "+//b" := by decide +kernel
  obtain ⟨trie,h⟩ := @HasKeys.exists_trie {chars "a//b"} (by decide +kernel)
  obtain ⟨trie',h'⟩ := @HasKeys.exists_trie {chars "+//b"} (by decide +kernel)
  have haccepts : isSubscribed trie.root (chars "a//b") = .ok true :=
    (h.isSubscribed_iff_accepts htopic).mpr (by decide +kernel)
  refine ⟨trie,trie',h,h',hwide,haccepts,?_⟩
  obtain ⟨hiff,-⟩ := @generalised_accepted_iff (chars "a//b") (chars "a//b") htopic 0 (by decide +kernel)
    trie trie' h (by rwa [hwide])
  exact hiff.mpr (fun _ => ⟨fun _ => by decide,fun hplus => absurd hplus (by decide +kernel)⟩) haccepts

/-- The topic `a/` is accepted with `a/+` and not with `a/*`. -/
theorem generalised_star_empty_level : ∃ trie trie' : Trie topicAlphabet.length,
    HasKeys trie {chars "a/+"} ∧ HasKeys trie' {generalised (chars "a/+") 1} ∧
    isSubscribed trie.root (chars "a/") = .ok true ∧ isSubscribed trie'.root (chars "a/") = .ok false := by
  have htopic : IsTopic (chars "a/") := by decide +kernel
  obtain ⟨trie,h⟩ := @HasKeys.exists_trie {chars "a/+"} (by decide +kernel)
  obtain ⟨trie',h'⟩ := @HasKeys.exists_trie {generalised (chars "a/+") 1} (by decide +kernel)
  refine ⟨trie,trie',h,h',(h.isSubscribed_iff_accepts htopic).mpr (by decide +kernel),?_⟩
  have hlost : isSubscribed trie'.root (chars "a/") ≠ .ok true :=
    (h'.isSubscribed_iff_accepts htopic).not.mpr (by decide +kernel)
  rw [isSubscribed_topic trie'.root htopic] at hlost ⊢
  rw [Except.ok.injEq,Bool.eq_false_iff]
  exact fun htrue => hlost (congrArg Except.ok htrue)

end ClientServerApp
