import ClientServerApp.Matcher.Subscribed

/-! The matcher with its pointers into the topic, which are positions in one string that ends in NUL, and with
a log of its calls of itself and of the rounds of its `*` loop. -/
namespace ClientServerApp
open OrderedSearch Traced

-- The position of a letter is a number that no proof here has to compute.
attribute [local irreducible] uIndex

/-- What the matcher logs: a call of itself, from the position where it was entered to the one that it
passes on, and a round of the `*` loop, from the value of `pos` before it to the value after it. -/
inductive MatcherEvent
  | call (entry rest : ℕ)
  | starRound (pos next : ℕ)
  deriving DecidableEq, Repr

abbrev Matching := Traced Halt MatcherEvent

section Positions
variable (topic : List UInt8) {n : ℕ}

/-- The read `topic[pos]`, where behind the NUL nothing may be read. -/
def charAt (pos : ℕ) : Outcome UInt8 := defined ((topic ++ [0])[pos]?)

/-- `while (topic[pos] != '\0' && topic[pos] != '/') pos++` -/
def skipLevelAt : ℕ → ℕ → Outcome ℕ
  | 0,_ => .error .outOfFuel
  | fuel+1,pos => do
    let c ← charAt topic pos
    if c ≠ 0 ∧ c ≠ slash then skipLevelAt fuel (pos+1) else pure pos

/-- `if (x) return true;`, and otherwise what follows. -/
def orElseAt (x y : Matching Bool) : Matching Bool := do
  if ← x then pure true else y

/-- The `+` wildcard. -/
def tryPlusAt (subscribed : TrieNode n → ℕ → Matching Bool) (topics : TrieNode n) (here : ℕ) : Matching Bool := do
  match ← lift (topics.child (uIndex plus)) with
  | some t => do
    let rest ← lift (skipLevelAt topic (topic.length+1) here)
    subscribed t rest
  | none => pure false

/-- The loop of the `*` wildcard. -/
def starLoopAt (subscribed : ℕ → Matching Bool) : ℕ → ℕ → Matching Bool
  | 0,_ => halt .outOfFuel
  | fuel+1,pos => do
    let c ← lift (charAt topic pos)
    if c = 0 then pure false
    else do
      let next ← lift (skipLevelAt topic (topic.length+1) (if c = slash then pos+1 else pos))
      emit (.starRound pos next)
      orElseAt (subscribed next) (starLoopAt subscribed fuel next)

/-- The `*` wildcard. -/
def tryStarAt (subscribed : TrieNode n → ℕ → Matching Bool) (topics : TrieNode n) (here : ℕ) : Matching Bool := do
  match ← lift (topics.child (uIndex star)) with
  | some t => starLoopAt topic (subscribed t) (topic.length+1) here
  | none => pure false

/-- The loop over the letters of this level. -/
def literalWalkAt : ℕ → TrieNode n → ℕ → Outcome (Option (TrieNode n × ℕ))
  | 0,_,_ => .error .outOfFuel
  | fuel+1,topics,pos => do
    let c ← charAt topic pos
    if c ≠ 0 ∧ c ≠ slash then do
      match ← topics.child (uIndex c) with
      | none => pure none
      | some t => literalWalkAt fuel t (pos+1)
    else pure (some (topics,pos))

/-- No wildcard. -/
def tryLiteralAt (subscribed : TrieNode n → ℕ → Matching Bool) (topics : TrieNode n) (here : ℕ) : Matching Bool := do
  match ← lift (literalWalkAt topic (topic.length+1) topics here) with
  | some (t,rest) => subscribed t rest
  | none => pure false

/-- The three attempts at one level, in order. -/
def tryLevelAt (subscribed : TrieNode n → ℕ → Matching Bool) (topics : TrieNode n) (here : ℕ) : Matching Bool :=
  orElseAt (tryPlusAt topic subscribed topics here)
    (orElseAt (tryStarAt topic subscribed topics here) (tryLiteralAt topic subscribed topics here))

/-- A call of the matcher by itself. -/
def logCall (subscribed : TrieNode n → ℕ → Matching Bool) (entry : ℕ) (topics : TrieNode n) (rest : ℕ) :
    Matching Bool := do
  emit (.call entry rest)
  subscribed topics rest

/-- `is_subscribed`, entered at a position, with at most `fuel` nested calls. -/
def isSubscribedAt : ℕ → TrieNode n → ℕ → Matching Bool
  | 0,_,_ => halt .outOfFuel
  | fuel+1,topics,entry => do
    let c ← lift (charAt topic entry)
    if c = 0 then pure topics.endOfWord
    else if c = slash then do
      match ← lift (topics.child (uIndex slash)) with
      | some t => tryLevelAt topic (logCall (isSubscribedAt fuel) entry) t (entry+1)
      | none => pure false
    else tryLevelAt topic (logCall (isSubscribedAt fuel) entry) topics entry

end Positions

section Reads
variable {topic rest : List UInt8} {c : UInt8} {fuel pos : ℕ}

/-- A position before the NUL: its character and the position behind it. -/
lemma drop_cons (h : topic.drop pos = c :: rest) :
    pos < topic.length ∧ topic.drop (pos+1) = rest ∧ charAt topic pos = .ok c := by
  have hlt : pos < topic.length := by
    rw [← not_le]
    intro hle
    rw [List.drop_eq_nil_of_le hle] at h
    cases h
  rw [List.drop_eq_getElem_cons hlt] at h
  obtain ⟨hc,hrest⟩ := List.cons.inj h
  refine ⟨hlt,hrest,?_⟩
  rw [charAt,List.getElem?_append_left hlt,List.getElem?_eq_getElem hlt,hc,defined_some]

/-- The position of the NUL. -/
lemma drop_nil (h : topic.drop pos = []) (hpos : pos ≤ topic.length) :
    pos = topic.length ∧ charAt topic pos = .ok 0 := by
  have hlen := List.drop_eq_nil_iff.mp h
  obtain rfl := Nat.le_antisymm hpos hlen
  refine ⟨rfl,?_⟩
  rw [charAt,List.getElem?_append_right le_rfl,Nat.sub_self]
  rfl

/-- A longer rest starts at an earlier position. -/
lemma pos_lt_of_drop {next : ℕ} (hnext : next ≤ topic.length)
    (h : (topic.drop next).length < (topic.drop pos).length) : pos < next := by
  rw [List.length_drop,List.length_drop] at h
  omega

lemma charAt_past (h : topic.length < pos) : charAt topic pos = .error .undefined := by
  rw [charAt,List.getElem?_eq_none,defined_none]
  rw [List.length_append,List.length_singleton]
  omega

/-- The loop over the letters reads no further than to the NUL. -/
lemma literalWalkAt_le {n : ℕ} {node t : TrieNode n} {next : ℕ}
    (h : literalWalkAt topic fuel node pos = .ok (some (t,next))) : next ≤ topic.length := by
  induction fuel generalizing pos node with
  | zero => cases h
  | succ fuel ih =>
    obtain ⟨c,hchar,h⟩ := Outcome.bind_eq_ok.mp h
    split_ifs at h with hc
    · obtain ⟨child,-,h⟩ := Outcome.bind_eq_ok.mp h
      cases child with
      | none => cases h
      | some child => exact ih h
    · cases h
      rw [← not_lt]
      intro hpast
      rw [charAt_past hpast] at hchar
      cases hchar

variable (hzero : 0 ∉ topic)
include hzero

lemma ne_zero_of_drop (h : topic.drop pos = c :: rest) : c ≠ 0 := by
  rintro rfl
  exact hzero (List.mem_of_mem_drop (h ▸ List.mem_cons_self))

/-- The inner loops stop at the end of the level. -/
theorem skipLevelAt_eq (hpos : pos ≤ topic.length) (hfuel : topic.length < pos+fuel) :
    ∃ next, skipLevelAt topic fuel pos = .ok next ∧ next ≤ topic.length ∧
      topic.drop next = skipLevel (topic.drop pos) := by
  induction fuel generalizing pos with
  | zero => omega
  | succ fuel ih =>
    rw [skipLevelAt]
    cases hrest : topic.drop pos with
    | nil =>
      refine ⟨pos,?_,hpos,hrest⟩
      rw [(drop_nil hrest hpos).2]
      rfl
    | cons c rest =>
      obtain ⟨hlt,hnext,hchar⟩ := drop_cons hrest
      rw [hchar]
      by_cases hc : c = slash
      · refine ⟨pos,?_,hpos,?_⟩
        · exact if_neg fun h => h.2 hc
        · rw [hrest,skipLevel,List.dropWhile_cons_of_neg (by simp [hc])]
      · obtain ⟨next,hskip,hle,hdrop⟩ := ih hlt (by omega)
        refine ⟨next,?_,hle,?_⟩
        · exact (if_pos ⟨ne_zero_of_drop hzero hrest,hc⟩).trans hskip
        · rw [hdrop,hnext,skipLevel,skipLevel,List.dropWhile_cons_of_pos (by simp [hc])]

/-- A round of the `*` loop moves to the next rest. -/
theorem starRound_eq (h : topic.drop pos = c :: rest) :
    ∃ next, skipLevelAt topic (topic.length+1) (if c = slash then pos+1 else pos) = .ok next ∧
      next ≤ topic.length ∧ topic.drop next = skipLevel (if c = slash then rest else c :: rest) ∧ pos < next := by
  obtain ⟨hlt,hnext,-⟩ := drop_cons h
  have hstart : (if c = slash then pos+1 else pos) ≤ topic.length := by
    split_ifs <;> omega
  have hdrop : topic.drop (if c = slash then pos+1 else pos) = if c = slash then rest else c :: rest := by
    split_ifs
    · exact hnext
    · exact h
  obtain ⟨next,hskip,hle,hrest⟩ := skipLevelAt_eq hzero hstart (show topic.length < _+(topic.length+1) by omega)
  rw [hdrop] at hrest
  refine ⟨next,hskip,hle,hrest,pos_lt_of_drop hle ?_⟩
  rw [hrest,h]
  exact skipLevel_length_lt c rest

/-- The loop over the letters, position by position. -/
theorem literalWalkAt_eq {n : ℕ} (node : TrieNode n) (hpos : pos ≤ topic.length) (hfuel : topic.length < pos+fuel) :
    literalWalk node (topic.drop pos) =
      (literalWalkAt topic fuel node pos).map (Option.map fun walked => (walked.1,topic.drop walked.2)) := by
  induction fuel generalizing pos node with
  | zero => omega
  | succ fuel ih =>
    rw [literalWalkAt]
    cases hrest : topic.drop pos with
    | nil =>
      rw [(drop_nil hrest hpos).2,literalWalk]
      change _ = Except.ok (some (node,topic.drop pos))
      rw [hrest]
      rfl
    | cons c rest =>
      obtain ⟨hlt,hnext,hchar⟩ := drop_cons hrest
      rw [hchar,literalWalk]
      by_cases hc : c = slash
      · rw [if_pos hc]
        change _ = Except.map _ (if c ≠ 0 ∧ c ≠ slash then _ else _)
        rw [if_neg fun h => h.2 hc,← hrest]
        rfl
      · rw [if_neg hc]
        change _ = Except.map _ (if c ≠ 0 ∧ c ≠ slash then _ else _)
        rw [if_pos ⟨ne_zero_of_drop hzero hrest,hc⟩]
        rcases node.child (uIndex c) with e | _ | t
        · rfl
        · rfl
        · rw [← hnext]
          exact ih t hlt (by omega)

end Reads

section Results
variable {topic : List UInt8} {n : ℕ} {here : ℕ}

@[simp] theorem orElseAt_result (x y : Matching Bool) : (orElseAt x y).result = orElse x.result y.result := by
  rw [orElseAt,bind_result]
  rcases x.result with e | _ | _ <;> rfl

/-- The `*` loop, position by position. -/
lemma starLoopAt_result (hzero : 0 ∉ topic) {subscribed : ℕ → Matching Bool} {f : List UInt8 → Outcome Bool}
    (hcall : ∀ pos ≤ topic.length, (subscribed pos).result = f (topic.drop pos)) {fuel fuel' pos : ℕ}
    (hpos : pos ≤ topic.length) (hfuel : topic.length < pos+fuel) (hfuel' : (topic.drop pos).length < fuel') :
    (starLoopAt topic subscribed fuel pos).result = starLoop f fuel' (topic.drop pos) := by
  induction fuel generalizing fuel' pos with
  | zero => omega
  | succ fuel ih =>
    obtain ⟨fuel',rfl⟩ := Nat.exists_eq_succ_of_ne_zero (Nat.ne_of_gt (Nat.zero_lt_of_lt hfuel'))
    rw [starLoopAt]
    cases hrest : topic.drop pos with
    | nil =>
      rw [(drop_nil hrest hpos).2]
      rfl
    | cons c rest =>
      obtain ⟨next,hskip,hle,hdrop,hlt⟩ := starRound_eq hzero hrest
      rw [(drop_cons hrest).2.2,lift_ok_bind,if_neg (ne_zero_of_drop hzero hrest),hskip,lift_ok_bind,bind_result,
        starLoop]
      change (orElseAt _ _).result = _
      rw [orElseAt_result,hcall next hle,ih hle (by omega) (lt_of_lt_of_le ?_ (Nat.le_of_lt_succ hfuel')),hdrop]
      rw [List.length_drop,List.length_drop]
      omega

/-- One level, position by position. -/
lemma tryLevelAt_result (hzero : 0 ∉ topic) {subscribed : TrieNode n → ℕ → Matching Bool}
    {f : TrieNode n → List UInt8 → Outcome Bool}
    (hcall : ∀ t, ∀ pos ≤ topic.length, (subscribed t pos).result = f t (topic.drop pos)) (node : TrieNode n)
    (hhere : here ≤ topic.length) :
    (tryLevelAt topic subscribed node here).result = tryLevel f node (topic.drop here) := by
  have hplus : (tryPlusAt topic subscribed node here).result = tryPlus f node (topic.drop here) := by
    obtain ⟨rest,hskip,hle,hdrop⟩ := skipLevelAt_eq hzero hhere (show topic.length < _+(topic.length+1) by omega)
    unfold tryPlusAt tryPlus
    rcases node.child (uIndex plus) with e | _ | t
    · rfl
    · rfl
    · change (lift (skipLevelAt topic (topic.length+1) here) >>= _).result = f t _
      rw [hskip,lift_ok_bind,hcall t rest hle,hdrop]
  have hstar : (tryStarAt topic subscribed node here).result = tryStar f node (topic.drop here) := by
    unfold tryStarAt tryStar
    rcases node.child (uIndex star) with e | _ | t
    · rfl
    · rfl
    · exact starLoopAt_result hzero (hcall t) hhere (by omega) (Nat.lt_succ_self _)
  have hliteral : (tryLiteralAt topic subscribed node here).result = tryLiteral f node (topic.drop here) := by
    have hwalk := literalWalkAt_eq hzero node hhere (show topic.length < _+(topic.length+1) by omega)
    unfold tryLiteralAt tryLiteral
    rw [hwalk]
    rcases hat : literalWalkAt topic (topic.length+1) node here with e | _ | ⟨t,rest⟩
    · rfl
    · rfl
    · exact hcall t rest (literalWalkAt_le hat)
  rw [tryLevelAt,orElseAt_result,orElseAt_result,hplus,hstar,hliteral,tryLevel]

/-- A call at the NUL. -/
lemma isSubscribedAt_nil {fuel entry : ℕ} (h : topic.drop entry = []) (hentry : entry ≤ topic.length)
    (node : TrieNode n) :
    isSubscribedAt topic (fuel+1) node entry = pure node.endOfWord := by
  rw [isSubscribedAt,(drop_nil h hentry).2,lift_ok_bind,if_pos rfl]

/-- A call before the NUL. -/
lemma isSubscribedAt_cons (hzero : 0 ∉ topic) {fuel entry : ℕ} {c : UInt8} {rest : List UInt8}
    (h : topic.drop entry = c :: rest) (node : TrieNode n) :
    isSubscribedAt topic (fuel+1) node entry =
      if c = slash then do
        match ← lift (node.child (uIndex slash)) with
        | some t => tryLevelAt topic (logCall (isSubscribedAt topic fuel) entry) t (entry+1)
        | none => pure false
      else tryLevelAt topic (logCall (isSubscribedAt topic fuel) entry) node entry := by
  rw [isSubscribedAt,(drop_cons h).2.2,lift_ok_bind,if_neg (ne_zero_of_drop hzero h)]

/-- With its pointers the matcher answers as on the rests of the topic. -/
theorem isSubscribedAt_result (hzero : 0 ∉ topic) (fuel : ℕ) (node : TrieNode n) {entry : ℕ}
    (hentry : entry ≤ topic.length) :
    (isSubscribedAt topic fuel node entry).result = isSubscribedWithin fuel node (topic.drop entry) := by
  induction fuel generalizing node entry with
  | zero => rfl
  | succ fuel ih =>
    have hcall : ∀ t : TrieNode n, ∀ pos ≤ topic.length,
        (logCall (isSubscribedAt topic fuel) entry t pos).result = isSubscribedWithin fuel t (topic.drop pos) :=
      fun t pos hpos => ih t hpos
    cases hrest : topic.drop entry with
    | nil =>
      rw [isSubscribedAt_nil hrest hentry]
      rfl
    | cons c rest =>
      obtain ⟨hlt,hnext,-⟩ := drop_cons hrest
      rw [isSubscribedAt_cons hzero hrest]
      by_cases hc : c = slash
      · rw [if_pos hc,isSubscribedWithin,if_pos hc]
        rcases node.child (uIndex slash) with e | _ | t
        · rfl
        · rfl
        · rw [← hnext]
          exact tryLevelAt_result hzero hcall t hlt
      · rw [if_neg hc,isSubscribedWithin,if_neg hc,← hrest]
        exact tryLevelAt_result hzero hcall node hentry

end Results

end ClientServerApp
