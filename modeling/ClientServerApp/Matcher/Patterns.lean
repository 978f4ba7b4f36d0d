import ClientServerApp.Matcher.Model
import ClientServerApp.Trie.Keys

/-! The matcher is a search through all patterns that match the topic, in a fixed order: each
pattern is walked through the trie letter by letter. -/
namespace ClientServerApp
open OrderedSearch

/-- The first level of a topic. -/
def firstLevel (topic : List UInt8) : List UInt8 := topic.takeWhile (· ≠ slash)

lemma firstLevel_append_skipLevel (topic : List UInt8) : firstLevel topic ++ skipLevel topic = topic :=
  List.takeWhile_append_dropWhile

lemma skipLevel_length_le (topic : List UInt8) : (skipLevel topic).length ≤ topic.length :=
  (List.dropWhile_suffix _).length_le

/-- One round of the `*` loop leaves a shorter rest. -/
lemma skipLevel_length_lt (c : UInt8) (topic : List UInt8) :
    (skipLevel (if c = slash then topic else c :: topic)).length < (c :: topic).length := by
  have h := skipLevel_length_le topic
  by_cases hc : c = slash
  · rw [if_pos hc,List.length_cons]
    omega
  · have hs : skipLevel (c :: topic) = skipLevel topic := by simp [skipLevel,hc]
    rw [if_neg hc,hs,List.length_cons]
    omega

/-- The rests of the topic that the `*` loop tries, in order. -/
def starRests : List UInt8 → List (List UInt8)
  | [] => []
  | c :: topic =>
    skipLevel (if c = slash then topic else c :: topic) ::
      starRests (skipLevel (if c = slash then topic else c :: topic))
termination_by topic => topic.length
decreasing_by exact skipLevel_length_lt c topic

lemma length_lt_of_mem_starRests {topic rest : List UInt8} (h : rest ∈ starRests topic) :
    rest.length < topic.length := by
  induction topic using starRests.induct with
  | case1 => simp [starRests] at h
  | case2 c topic ih =>
    have hlt := skipLevel_length_lt c topic
    rw [starRests,List.mem_cons] at h
    rcases h with rfl | h
    · exact hlt
    · exact (ih h).trans hlt

lemma starRests_suffix {topic rest : List UInt8} (h : rest ∈ starRests topic) : rest <:+ topic := by
  induction topic using starRests.induct with
  | case1 => simp [starRests] at h
  | case2 c topic ih =>
    have hs : skipLevel (if c = slash then topic else c :: topic) <:+ c :: topic := by
      refine (List.dropWhile_suffix _).trans ?_
      split_ifs
      · exact List.suffix_cons c topic
      · exact List.suffix_rfl
    rw [starRests,List.mem_cons] at h
    rcases h with rfl | h
    · exact hs
    · exact (ih h).trans hs

/-- The topic after the `/` that may start it. -/
def crossSlash (topic : List UInt8) : List UInt8 :=
  match topic with
  | [] => []
  | c :: rest => if c = slash then rest else c :: rest

/-- The patterns that match a topic, in the order in which the matcher tries them: at each level
first `+`, then `*` for one, two, .. levels, then the level itself. -/
def patterns (topic : List UInt8) : List (List UInt8) :=
  match topic with
  | [] => [[]]
  | c :: rest =>
    let here := crossSlash (c :: rest)
    let after := (patterns (skipLevel here))
    let level := after.map (plus :: ·) ++
      (starRests here).attach.flatMap (fun r => (patterns r.val).map (star :: ·)) ++
      after.map (firstLevel here ++ ·)
    if c = slash then level.map (slash :: ·) else level
termination_by topic.length
decreasing_by
  · exact skipLevel_length_lt c rest
  · have h := length_lt_of_mem_starRests r.property
    have hle : (crossSlash (c :: rest)).length ≤ (c :: rest).length := by
      by_cases hc : c = slash <;> simp [crossSlash,hc]
    exact h.trans_le hle

/-- The patterns that match a topic from the start of a level on. -/
def levelPatterns (topic : List UInt8) : List (List UInt8) :=
  (patterns (skipLevel topic)).map (plus :: ·) ++
    (starRests topic).flatMap (fun r => (patterns r).map (star :: ·)) ++
    (patterns (skipLevel topic)).map (firstLevel topic ++ ·)

@[simp] theorem patterns_nil : patterns [] = [[]] := by rw [patterns]

@[simp] theorem patterns_slash (rest : List UInt8) :
    patterns (slash :: rest) = (levelPatterns rest).map (slash :: ·) := by
  rw [patterns]
  simp only [crossSlash,if_pos,levelPatterns]
  rw [List.flatMap_subtype (g := fun r => (patterns r).map (star :: ·)) (fun _ _ => rfl)]
  simp

theorem patterns_cons {c : UInt8} (hc : c ≠ slash) (rest : List UInt8) :
    patterns (c :: rest) = levelPatterns (c :: rest) := by
  rw [patterns]
  simp only [crossSlash,if_neg hc,levelPatterns]
  rw [List.flatMap_subtype (g := fun r => (patterns r).map (star :: ·)) (fun _ _ => rfl)]
  simp [hc]

/-- The rests on which the matcher calls itself from the start of a level on. -/
def NestedRest (topic rest : List UInt8) : Prop := rest = skipLevel topic ∨ rest ∈ starRests topic

lemma NestedRest.suffix {topic rest : List UInt8} (h : NestedRest topic rest) : rest <:+ topic := by
  rcases h with rfl | h
  · exact List.dropWhile_suffix _
  · exact starRests_suffix h

/-- From a level that does not start with `/` the matcher calls itself on a shorter rest. -/
lemma NestedRest.length_lt {c : UInt8} {topic rest : List UInt8} (hc : c ≠ slash)
    (h : NestedRest (c :: topic) rest) :
    rest.length < (c :: topic).length := by
  rcases h with rfl | h
  · have hs := skipLevel_length_lt c topic
    rwa [if_neg hc] at hs
  · exact length_lt_of_mem_starRests h

/-- Induction along the nested calls of the matcher. -/
theorem nestedInduction {P : List UInt8 → Prop} (nil : P [])
    (crossing : ∀ rest, (∀ r, NestedRest rest r → P r) → P (slash :: rest))
    (level : ∀ c rest, c ≠ slash → (∀ r, NestedRest (c :: rest) r → P r) → P (c :: rest))
    (topic : List UInt8) : P topic := by
  induction h : topic.length using Nat.strong_induction_on generalizing topic with
  | _ n ih =>
    cases topic with
    | nil => exact nil
    | cons c rest =>
      rw [List.length_cons] at h
      by_cases hc : c = slash
      · subst c
        refine crossing rest fun r hr => ih r.length ?_ r rfl
        have := hr.suffix.length_le
        omega
      · refine level c rest hc fun r hr => ih r.length ?_ r rfl
        have hlt := hr.length_lt hc
        rw [List.length_cons] at hlt
        omega

lemma patterns_ne_nil (topic : List UInt8) : patterns topic ≠ [] := by
  induction topic using nestedInduction with
  | nil => simp
  | crossing rest ih => simp [levelPatterns,ih _ (.inl rfl)]
  | level c rest hc ih => simp [patterns_cons hc,levelPatterns,ih _ (.inl rfl)]

/-- The nodes of a subscription trie. -/
abbrev TopicNode := TrieNode topicAlphabet.length

lemma topicAlphabet_length : topicAlphabet.length = 96 := rfl

section Letters
variable (node : TopicNode) {c : UInt8} {i : Fin topicAlphabet.length}

lemma child_uIndex (h : topicAlphabet.finIdxOf? c = some i) :
    node.child (uIndex c) = .ok (node.children i) := by
  have hi : (i : ℕ) < 96 := i.isLt
  have hu : uIndex c = ((i : ℕ) : ℤ) := by
    rw [uIndex,getIndex_of_slot h]
    omega
  rw [hu,TrieNode.child_fin]

/-- The index of a foreign letter is 2^32-1, far outside the array of children. -/
lemma child_foreign (h : c ∉ topicAlphabet) : node.child (uIndex c) = .error .undefined := by
  have hu : uIndex c = 4294967295 := by
    rw [uIndex,getIndex_foreign h]
    rfl
  rw [hu,TrieNode.child,dif_neg]
  rw [topicAlphabet_length]
  decide

end Letters

/-- Follow one pattern through the trie. -/
def walk (node : TopicNode) (pattern : List UInt8) : Outcome Bool :=
  match pattern with
  | [] => .ok node.endOfWord
  | c :: rest => do
    match ← node.child (uIndex c) with
    | none => pure false
    | some t => walk t rest

section Walk
variable (node : TopicNode)

lemma walk_cons {c : UInt8} {i : Fin topicAlphabet.length} (h : topicAlphabet.finIdxOf? c = some i)
    (rest : List UInt8) :
    walk node (c :: rest) = (node.children i).elim (.ok false) fun t => walk t rest := by
  rw [walk,child_uIndex node h]
  cases node.children i <;> rfl

lemma walk_foreign {c : UInt8} (h : c ∉ topicAlphabet) (rest : List UInt8) :
    walk node (c :: rest) = .error .undefined := by
  rw [walk,child_foreign node h]
  rfl

/-- Searching patterns with a common first letter is searching below its child. -/
lemma search_walk_cons {c : UInt8} {i : Fin topicAlphabet.length}
    (h : topicAlphabet.finIdxOf? c = some i) (tails : List (List UInt8)) :
    search (walk node) (tails.map (c :: ·)) =
      (node.children i).elim (.ok false) fun t => search (walk t) tails := by
  rw [search_map]
  cases ht : node.children i with
  | none =>
    refine search_eq_false fun q _ => ?_
    rw [walk_cons node h,ht]
    rfl
  | some t =>
    refine search_congr fun q _ => ?_
    rw [walk_cons node h,ht]
    rfl

/-- Searching patterns that start with the level of the topic is the literal branch. -/
lemma search_walk_literal (topic : List UInt8) {tails : List (List UInt8)} (hne : tails ≠ []) :
    search (walk node) (tails.map (firstLevel topic ++ ·)) =
      tryLiteral (fun t _ => search (walk t) tails) node topic := by
  induction topic generalizing node with
  | nil =>
    have hid : tails.map (firstLevel [] ++ ·) = tails := List.map_id' tails
    rw [hid]
    rfl
  | cons c rest ih =>
    by_cases hc : c = slash
    · have hid : tails.map (firstLevel (c :: rest) ++ ·) = tails := by simp [firstLevel,hc]
      rw [hid,tryLiteral,literalWalk,if_pos hc]
      rfl
    · have hcons : tails.map (firstLevel (c :: rest) ++ ·) =
          (tails.map (firstLevel rest ++ ·)).map (c :: ·) := by simp [firstLevel,hc]
      rw [hcons,tryLiteral,literalWalk,if_neg hc]
      by_cases hm : c ∈ topicAlphabet
      · obtain ⟨i,hi⟩ := exists_slot hm
        rw [search_walk_cons node hi,child_uIndex node hi]
        cases node.children i with
        | none => rfl
        | some t => exact ih t
      · obtain ⟨q,qs,hq⟩ := List.exists_cons_of_ne_nil
          (l := tails.map (firstLevel rest ++ ·)) (by simpa using hne)
        rw [hq,List.map_cons,search_cons,walk_foreign node hm,child_foreign node hm]
        rfl

end Walk

/-- The literal branch passes on the rest after the level. -/
lemma literalWalk_rest {node t : TopicNode} {topic rest : List UInt8}
    (h : literalWalk node topic = .ok (some (t,rest))) : rest = skipLevel topic := by
  induction topic generalizing node with
  | nil => cases h; rfl
  | cons c topic ih =>
    rw [literalWalk] at h
    by_cases hc : c = slash
    · rw [if_pos hc] at h
      cases h
      simp [skipLevel,hc]
    · rw [if_neg hc] at h
      have hs : skipLevel (c :: topic) = skipLevel topic := by simp [skipLevel,hc]
      rw [hs]
      cases hchild : node.child (uIndex c) with
      | error e => rw [hchild] at h; cases h
      | ok o =>
        rw [hchild] at h
        cases o with
        | none => cases h
        | some m => exact ih h

/-- The `*` loop tries the rests in order. -/
lemma starLoop_eq (f : List UInt8 → Outcome Bool) {fuel : ℕ} {topic : List UInt8}
    (h : topic.length < fuel) : starLoop f fuel topic = search f (starRests topic) := by
  induction fuel generalizing topic with
  | zero => omega
  | succ fuel ih =>
    cases topic with
    | nil => rw [starRests]; rfl
    | cons c topic =>
      have hlt := skipLevel_length_lt c topic
      rw [starLoop,starRests,search_cons,ih (by omega)]

/-- One level of the matcher, when the nested calls search their patterns. -/
lemma tryLevel_eq {subscribed : TopicNode → List UInt8 → Outcome Bool} (node : TopicNode)
    (topic : List UInt8)
    (hskip : ∀ t, subscribed t (skipLevel topic) = search (walk t) (patterns (skipLevel topic)))
    (hstar : ∀ t, ∀ r ∈ starRests topic, subscribed t r = search (walk t) (patterns r)) :
    tryLevel subscribed node topic = search (walk node) (levelPatterns topic) := by
  have hplus : tryPlus subscribed node topic =
      search (walk node) ((patterns (skipLevel topic)).map (plus :: ·)) := by
    obtain ⟨i,hi⟩ := exists_slot plus_mem_alphabet
    rw [search_walk_cons node hi,tryPlus,child_uIndex node hi]
    cases node.children i with
    | none => rfl
    | some t => exact hskip t
  have hmany : tryStar subscribed node topic =
      search (walk node) ((starRests topic).flatMap fun r => (patterns r).map (star :: ·)) := by
    obtain ⟨i,hi⟩ := exists_slot star_mem_alphabet
    rw [search_flatMap,tryStar,child_uIndex node hi]
    cases ht : node.children i with
    | none =>
      symm
      refine search_eq_false fun r _ => ?_
      rw [search_walk_cons node hi,ht]
      rfl
    | some t =>
      change starLoop (subscribed t) (topic.length+1) topic = _
      rw [starLoop_eq _ (Nat.lt_succ_self _)]
      refine search_congr fun r hr => ?_
      rw [search_walk_cons node hi,ht,hstar t r hr]
      rfl
  have hliteral : tryLiteral subscribed node topic =
      search (walk node) ((patterns (skipLevel topic)).map (firstLevel topic ++ ·)) := by
    rw [search_walk_literal node topic (patterns_ne_nil _),tryLiteral,tryLiteral]
    cases hw : literalWalk node topic with
    | error e => rfl
    | ok o =>
      rcases o with _ | ⟨t,rest⟩
      · rfl
      · rw [literalWalk_rest hw]
        exact hskip t
  rw [tryLevel,hplus,hmany,hliteral,levelPatterns,search_append,search_append,orElse_assoc]

/-- With enough fuel the matcher is the ordered search through the patterns of the topic. -/
theorem isSubscribedWithin_eq {fuel : ℕ} {topic : List UInt8} (h : topic.length < fuel)
    (node : TopicNode) : isSubscribedWithin fuel node topic = search (walk node) (patterns topic) := by
  induction fuel generalizing topic node with
  | zero => omega
  | succ fuel ih =>
    cases topic with
    | nil => simp [isSubscribedWithin,walk,pure,Except.pure]
    | cons c rest =>
      rw [List.length_cons] at h
      rw [isSubscribedWithin]
      by_cases hc : c = slash
      · subst c
        have hs := skipLevel_length_le rest
        obtain ⟨i,hi⟩ := exists_slot slash_mem_alphabet
        rw [if_pos rfl,patterns_slash,search_walk_cons node hi,child_uIndex node hi]
        cases node.children i with
        | none => rfl
        | some t =>
          refine tryLevel_eq t rest (fun m => ih (by omega) m) fun m r hr => ?_
          have := length_lt_of_mem_starRests hr
          exact ih (by omega) m
      · have hs := skipLevel_length_lt c rest
        rw [if_neg hc,List.length_cons] at hs
        rw [if_neg hc,patterns_cons hc]
        refine tryLevel_eq node (c :: rest) (fun m => ih (by omega) m) fun m r hr => ?_
        have := length_lt_of_mem_starRests hr
        rw [List.length_cons] at this
        exact ih (by omega) m

theorem isSubscribed_eq (node : TopicNode) (topic : List UInt8) :
    isSubscribed node topic = search (walk node) (patterns topic) :=
  isSubscribedWithin_eq (Nat.lt_succ_self _) node

end ClientServerApp
