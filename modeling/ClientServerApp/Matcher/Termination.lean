import ClientServerApp.Matcher.Pointers

/-! The matcher terminates: each call of itself and each round of the `*` loop moves ahead in the topic. -/
namespace ClientServerApp
open OrderedSearch Traced

/-- A call passes on a strictly shorter rest, a round of the `*` loop strictly increases the position, and
neither goes past the NUL. -/
def MatcherEvent.Advances (length : ℕ) : MatcherEvent → Prop
  | .call entry rest => entry < rest ∧ rest ≤ length
  | .starRound pos next => pos < next ∧ next ≤ length

section Events
variable {topic : List UInt8} {P : MatcherEvent → Prop} {here : ℕ}

lemma orElseAt_emits {x y : Matching Bool} (hx : Emits P x) (hy : Emits P y) : Emits P (orElseAt x y) := by
  refine hx.bind fun found => ?_
  cases found with
  | false => exact hy
  | true => exact Emits.pure true

variable (hzero : 0 ∉ topic) (hround : ∀ pos next, pos < next → next ≤ topic.length → P (.starRound pos next))
include hzero hround

/-- The rounds of the `*` loop move ahead, and each one calls on the next of the rests. -/
lemma starLoopAt_emits {subscribed : ℕ → Matching Bool} {fuel pos : ℕ} (hpos : pos ≤ topic.length)
    (hcall : ∀ next ≤ topic.length, topic.drop next ∈ starRests (topic.drop pos) → Emits P (subscribed next)) :
    Emits P (starLoopAt topic subscribed fuel pos) := by
  induction fuel generalizing pos with
  | zero => exact Emits.halt _
  | succ fuel ih =>
    rw [starLoopAt]
    cases hrest : topic.drop pos with
    | nil =>
      rw [(drop_nil hrest hpos).2]
      exact Emits.pure false
    | cons c rest =>
      obtain ⟨next,hskip,hle,hdrop,hlt⟩ := starRound_eq hzero hrest
      rw [hrest,starRests,← hdrop] at hcall
      rw [(drop_cons hrest).2.2,lift_ok_bind,if_neg (ne_zero_of_drop hzero hrest),hskip,lift_ok_bind]
      refine (Emits.emit (hround pos next hlt hle)).bind fun _ => orElseAt_emits ?_ (ih hle fun r hr hmem => ?_)
      · exact hcall next hle List.mem_cons_self
      · exact hcall r hr (List.mem_cons_of_mem _ hmem)

/-- At one level the matcher calls itself on the rest behind the level, or on those of the `*` loop. -/
lemma tryLevelAt_emits {subscribed : TopicNode → ℕ → Matching Bool} (node : TopicNode) (hhere : here ≤ topic.length)
    (hcall : ∀ t, ∀ rest ≤ topic.length, NestedRest (topic.drop here) (topic.drop rest) →
      Emits P (subscribed t rest)) :
    Emits P (tryLevelAt topic subscribed node here) := by
  have hfuel : topic.length < here+(topic.length+1) := by omega
  unfold tryLevelAt tryPlusAt tryStarAt tryLiteralAt
  refine orElseAt_emits ?_ (orElseAt_emits ?_ ?_)
  · -- `+`
    refine Emits.lift_bind fun child _ => ?_
    cases child with
    | none => exact Emits.pure false
    | some t =>
      obtain ⟨rest,hskip,hle,hdrop⟩ := skipLevelAt_eq hzero hhere hfuel
      change Emits P (lift (skipLevelAt topic (topic.length+1) here) >>= subscribed t)
      rw [hskip]
      exact hcall t rest hle (.inl hdrop)
  · -- `*`
    refine Emits.lift_bind fun child _ => ?_
    cases child with
    | none => exact Emits.pure false
    | some t => exact starLoopAt_emits hzero hround hhere fun next hle hmem => hcall t next hle (.inr hmem)
  · -- no wildcard
    refine Emits.lift_bind fun walked hwalked => ?_
    rcases walked with _ | ⟨t,rest⟩
    · exact Emits.pure false
    · have hwalk := literalWalkAt_eq hzero node hhere hfuel
      rw [hwalked] at hwalk
      exact hcall t rest (literalWalkAt_le hwalked) (.inl (literalWalk_rest hwalk))

end Events

section Termination
variable {topic : List UInt8}

/-- All that the matcher logs moves ahead in the topic, whatever the depth at which it is stopped. -/
theorem isSubscribedAt_emits (hzero : 0 ∉ topic) (fuel : ℕ) (node : TopicNode) {entry : ℕ}
    (hentry : entry ≤ topic.length) :
    Emits (MatcherEvent.Advances topic.length) (isSubscribedAt topic fuel node entry) := by
  induction fuel generalizing node entry with
  | zero => exact Emits.halt _
  | succ fuel ih =>
    have hcall : ∀ (t : TopicNode) (rest : ℕ), rest ≤ topic.length → entry < rest →
        Emits (MatcherEvent.Advances topic.length) (logCall (isSubscribedAt topic fuel) entry t rest) :=
      fun t rest hle hlt => (Emits.emit ⟨hlt,hle⟩).bind fun _ => ih t hle
    cases hrest : topic.drop entry with
    | nil =>
      rw [isSubscribedAt_nil hrest hentry]
      exact Emits.pure _
    | cons c rest =>
      obtain ⟨hlt,hnext,-⟩ := drop_cons hrest
      rw [isSubscribedAt_cons hzero hrest]
      by_cases hc : c = slash
      · -- the crossed `/` makes the rest shorter, also where the level behind it is empty
        rw [if_pos hc]
        refine Emits.lift_bind fun child _ => ?_
        cases child with
        | none => exact Emits.pure false
        | some t =>
          refine tryLevelAt_emits hzero (fun _ _ hlt hle => ⟨hlt,hle⟩) t hlt fun m r hle hr => hcall m r hle ?_
          have hlen := hr.suffix.length_le
          exact pos_lt_of_drop hle (by rw [hrest,← hnext,List.length_cons]; omega)
      · -- the level has a letter, which every call leaves behind
        rw [if_neg hc]
        refine tryLevelAt_emits hzero (fun _ _ hlt hle => ⟨hlt,hle⟩) node hentry fun m r hle hr => hcall m r hle ?_
        rw [hrest] at hr
        exact pos_lt_of_drop hle (by rw [hrest]; exact hr.length_lt hc)

/-- On every trie and every topic the matcher comes to its answer, at any depth above the length of the topic,
and each call of itself and each round of its `*` loop moves ahead in the topic and never past its end. -/
theorem isSubscribed_terminates (node : TopicNode) (htopic : IsTopic topic) :
    (∃ answer, isSubscribed node topic = .ok answer ∧
      ∀ fuel, topic.length < fuel → (isSubscribedAt topic fuel node 0).result = .ok answer) ∧
    ∀ fuel, Emits (MatcherEvent.Advances topic.length) (isSubscribedAt topic fuel node 0) := by
  have hzero := zero_not_mem_topic htopic
  refine ⟨?_,fun fuel => isSubscribedAt_emits hzero fuel node (Nat.zero_le _)⟩
  obtain ⟨answer,hanswer⟩ : ∃ answer, isSubscribed node topic = .ok answer := ⟨_,isSubscribed_topic node htopic⟩
  refine ⟨answer,hanswer,fun fuel hfuel => ?_⟩
  rw [isSubscribedAt_result hzero fuel node (Nat.zero_le _),List.drop_zero,isSubscribedWithin_eq hfuel,
    ← isSubscribed_eq,hanswer]

/-- A topic of empty levels around a letter, and a subscription with both wildcards. -/
theorem isSubscribed_terminates_emptyLevels :
    ∃ trie, trieAfter 1 topicAlphabet [.insert (chars "/+/*") (chars "T")] = .ok trie ∧
      (∃ answer, isSubscribed trie.root (chars "//a//") = .ok answer ∧
        ∀ fuel, (chars "//a//").length < fuel →
          (isSubscribedAt (chars "//a//") fuel trie.root 0).result = .ok answer) ∧
      ∀ fuel, Emits (MatcherEvent.Advances (chars "//a//").length)
        (isSubscribedAt (chars "//a//") fuel trie.root 0) :=
  ⟨_,rfl,isSubscribed_terminates _ (by decide +kernel)⟩

end Termination

end ClientServerApp
