import ClientServerApp.Base

/-! The trie of `trie.c`. A function that may write to `trie_t` while it walks the nodes takes
and returns the fields of `trie_t` beside the node it works on. -/
namespace ClientServerApp

/-- A value allocated by an insert: which allocation it was, and the copied bytes. -/
structure ValueBuffer where
  allocation : ℕ
  bytes : List UInt8
  deriving DecidableEq, Repr

/-- `trie_node_t` with an array of `n` children. The counter is an integer, so that a decrement
below zero would be seen. -/
structure TrieNode (n : ℕ) where
  value : Option ValueBuffer
  endOfWord : Bool
  children : Fin n → Option (TrieNode n)
  nChildren : ℤ

/-- `trie_t` without its root. `allocated` counts the value buffers allocated so far and
`freed` lists those passed to `free_value`, latest first. -/
structure TrieInfo where
  size : ℤ
  dataSize : ℕ
  alphabet : List UInt8
  nNodes : ℤ
  allocated : ℕ
  freed : List ℕ
  deriving DecidableEq, Repr

/-- `trie_t`; the index is `alphabet_size`. -/
structure Trie (n : ℕ) where
  root : TrieNode n
  info : TrieInfo

variable {n : ℕ}

namespace TrieNode

/-- The read `node->children[idx]`, defined inside the array only. -/
def child (node : TrieNode n) (idx : ℤ) : Outcome (Option (TrieNode n)) :=
  if h : 0 ≤ idx ∧ idx.toNat < n then .ok (node.children ⟨idx.toNat,h.2⟩) else .error .undefined

/-- The write `node->children[idx] = t`. -/
def setChild (node : TrieNode n) (idx : ℤ) (t : Option (TrieNode n)) : TrieNode n :=
  { node with children := fun i => if (i : ℤ) = idx then t else node.children i }

end TrieNode

def trieNodeCreate : TrieNode n where
  value := none
  endOfWord := false
  children := fun _ => none
  nChildren := 0

def trieCreate (dataSize n : ℕ) (alphabet : List UInt8) : Trie n where
  root := trieNodeCreate
  info := { size := 0, dataSize := dataSize, alphabet := alphabet, nNodes := 1, allocated := 0, freed := [] }

/-- The first position of the letter, or -1. -/
def getIndexFromAlphabet (alphabet : List UInt8) (letter : UInt8) : ℤ :=
  match alphabet.finIdxOf? letter with
  | some i => i
  | none => -1

def trieInsertHelper (trie : TrieInfo) (trieNode : TrieNode n) (key value : List UInt8) :
    Outcome (TrieInfo × TrieNode n) :=
  match key with
  | [] =>
    -- `memcpy` of `data_size` bytes
    if value.length < trie.dataSize then .error .undefined
    else .ok ({ trie with allocated := trie.allocated+1, size := trie.size+1 },
      { trieNode with value := some ⟨trie.allocated,value.take trie.dataSize⟩, endOfWord := true })
  | letter :: rest =>
    let childIdx := getIndexFromAlphabet trie.alphabet letter
    if childIdx = -1 then .error (.die "Current letter from key is not in alphabet")
    else do
      match ← trieNode.child childIdx with
      | some t =>
        let (trie,t) ← trieInsertHelper trie t rest value
        pure (trie,trieNode.setChild childIdx (some t))
      | none =>
        let trie := { trie with nNodes := trie.nNodes+1 }
        let trieNode := { trieNode with nChildren := trieNode.nChildren+1 }
        let (trie,t) ← trieInsertHelper trie trieNodeCreate rest value
        pure (trie,trieNode.setChild childIdx (some t))

def trieInsert (trie : Trie n) (key value : List UInt8) : Outcome (Trie n) := do
  let (info,root) ← trieInsertHelper trie.info trie.root key value
  pure ⟨root,info⟩

def trieSearchHelper (trie : TrieInfo) (trieNode : TrieNode n) (key : List UInt8) :
    Outcome (Option ValueBuffer) :=
  match key with
  | [] => .ok (if trieNode.endOfWord then trieNode.value else none)
  | letter :: rest => do
    match ← trieNode.child (getIndexFromAlphabet trie.alphabet letter) with
    | none => pure none
    | some t => trieSearchHelper trie t rest

/-- `NULL` is `none`. -/
def trieSearch (trie : Trie n) (key : List UInt8) : Outcome (Option ValueBuffer) :=
  trieSearchHelper trie.info trie.root key

/-- The call of `free_value` on a buffer that may be `NULL`. -/
def TrieInfo.freeValue (trie : TrieInfo) (value : Option ValueBuffer) : TrieInfo :=
  { trie with freed := value.toList.map ValueBuffer.allocation ++ trie.freed }

def trieNodeFree (trie : TrieInfo) (node : TrieNode n) : TrieInfo := trie.freeValue node.value

/-- The flag tells the caller to delete this node. -/
def trieRemoveHelper (trie : TrieInfo) (trieNode : TrieNode n) (key : List UInt8) :
    Outcome (TrieInfo × TrieNode n × Bool) :=
  match key with
  | [] =>
    if trieNode.endOfWord then
      let trie := { trie with size := trie.size-1 }
      .ok (trie.freeValue trieNode.value,{ trieNode with endOfWord := false, value := none },
        trieNode.nChildren == 0)
    else .ok (trie,trieNode,trieNode.nChildren == 0)
  | letter :: rest =>
    let childIdx := getIndexFromAlphabet trie.alphabet letter
    if childIdx = -1 then .ok (trie,trieNode,false)
    else do
      match ← trieNode.child childIdx with
      | none => pure (trie,trieNode,false)
      | some t =>
        let (trie,t,delete) ← trieRemoveHelper trie t rest
        if delete then
          let trie := { trieNodeFree trie t with nNodes := trie.nNodes-1 }
          let trieNode := { trieNode.setChild childIdx none with nChildren := trieNode.nChildren-1 }
          pure (trie,trieNode,trieNode.nChildren == 0 && !trieNode.endOfWord)
        else
          let trieNode := trieNode.setChild childIdx (some t)
          pure (trie,trieNode,trieNode.nChildren == 0 && !trieNode.endOfWord)

def trieRemove (trie : Trie n) (key : List UInt8) : Outcome (Trie n) := do
  let (info,root,_) ← trieRemoveHelper trie.info trie.root key
  pure ⟨root,info⟩

mutual

/-- The children are freed from the first to the last, and then the node. -/
def trieNodeAndChildrenFree (trie : TrieInfo) : TrieNode n → TrieInfo
  | ⟨value,endOfWord,children,nChildren⟩ =>
    let trie := (List.finRange n).foldl (fun trie i => childFree trie (children i)) trie
    trieNodeFree trie (⟨value,endOfWord,children,nChildren⟩ : TrieNode n)

/-- One round of the loop over the children. -/
def childFree (trie : TrieInfo) : Option (TrieNode n) → TrieInfo
  | none => trie
  | some t => trieNodeAndChildrenFree trie t

end

/-- What `trie_free` leaves of the fields, that is, which buffers have been freed in the end. -/
def trieFree (trie : Trie n) : TrieInfo := trieNodeAndChildrenFree trie.info trie.root

end ClientServerApp
