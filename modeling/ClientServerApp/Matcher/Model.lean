import ClientServerApp.Messages
import ClientServerApp.Trie.Model
import ClientServerApp.Library.OrderedSearch

/-! The matcher `is_subscribed` of `server.c`. A `char *` into the topic is the rest of the
topic from there on. -/
namespace ClientServerApp
open OrderedSearch

variable {n : ℕ}

/-- A position in the alphabet as it is stored in a `u_int`. -/
def uIndex (letter : UInt8) : ℤ := getIndexFromAlphabet topicAlphabet letter % 2^32

/-- `while (topic[pos] != '\0' && topic[pos] != '/') pos++`. -/
def skipLevel (topic : List UInt8) : List UInt8 := topic.dropWhile (· ≠ slash)

def tryPlus (subscribed : TrieNode n → List UInt8 → Outcome Bool) (topics : TrieNode n)
    (topic : List UInt8) : Outcome Bool := do
  match ← topics.child (uIndex plus) with
  | some t => subscribed t (skipLevel topic)
  | none => pure false

def starLoop (subscribed : List UInt8 → Outcome Bool) : ℕ → List UInt8 → Outcome Bool
  | 0,_ => .error .outOfFuel
  | _+1,[] => pure false
  | fuel+1,c :: topic =>
    let rest := skipLevel (if c = slash then topic else c :: topic)
    orElse (subscribed rest) (starLoop subscribed fuel rest)

def tryStar (subscribed : TrieNode n → List UInt8 → Outcome Bool) (topics : TrieNode n)
    (topic : List UInt8) : Outcome Bool := do
  match ← topics.child (uIndex star) with
  | some t => starLoop (subscribed t) (topic.length+1) topic
  | none => pure false

/-- The loop over the letters of this level. -/
def literalWalk (topics : TrieNode n) (topic : List UInt8) : Outcome (Option (TrieNode n × List UInt8)) :=
  match topic with
  | [] => pure (some (topics,[]))
  | c :: rest =>
    if c = slash then pure (some (topics,c :: rest))
    else do
      match ← topics.child (uIndex c) with
      | none => pure none
      | some t => literalWalk t rest

def tryLiteral (subscribed : TrieNode n → List UInt8 → Outcome Bool) (topics : TrieNode n)
    (topic : List UInt8) : Outcome Bool := do
  match ← literalWalk topics topic with
  | some (t,rest) => subscribed t rest
  | none => pure false

/-- The three attempts at one level, in order. -/
def tryLevel (subscribed : TrieNode n → List UInt8 → Outcome Bool) (topics : TrieNode n)
    (topic : List UInt8) : Outcome Bool :=
  orElse (tryPlus subscribed topics topic)
    (orElse (tryStar subscribed topics topic) (tryLiteral subscribed topics topic))

/-- `is_subscribed` with at most `fuel` nested calls. -/
def isSubscribedWithin : ℕ → TrieNode n → List UInt8 → Outcome Bool
  | 0,_,_ => .error .outOfFuel
  | fuel+1,topics,topic =>
    match topic with
    | [] => pure topics.endOfWord
    | c :: rest =>
      if c = slash then do
        match ← topics.child (uIndex slash) with
        | some t => tryLevel (isSubscribedWithin fuel) t rest
        | none => pure false
      else tryLevel (isSubscribedWithin fuel) topics (c :: rest)

/-- Every nested call works on a shorter rest, so this depth is never exhausted. -/
def isSubscribed (topics : TrieNode n) (topic : List UInt8) : Outcome Bool :=
  isSubscribedWithin (topic.length+1) topics topic

end ClientServerApp
