import ClientServerApp.LinkedList.Model
import ClientServerApp.Library.LastWrite

/-! The hash table of `hashmap.c` with the nodes of its lists in a memory. A node comes and goes with its pair,
the key and the value. -/
namespace ClientServerApp.HashTable
open LinkedList

/-- `ht_t` -/
structure Ht (K V : Type) where
  buckets : List Ll
  size : ℕ
  hmax : ℕ
  hashFunction : K → UInt32
  compareFunction : K → K → ℤ

/-- What `malloc` returns for a node, by the nodes in use; `NULL` is `none`. -/
abbrev Malloc (K V : Type) := Memory (K × V) → Option Addr

/-- Why a call stops: as other functions do, or at a failed `malloc`, with the nodes that are then in use. -/
inductive Stop (K V : Type)
  | halt (reason : Halt)
  | die (call : String) (heap : Memory (K × V))

/-- A part that allocates nothing. -/
def lift {K V α : Type} (x : Outcome α) : Except (Stop K V) α := x.mapError .halt

@[simp] lemma lift_ok {K V α : Type} (a : α) : (lift (.ok a) : Except (Stop K V) α) = .ok a := rfl

section Functions
variable {K V : Type}

def htCreate (hmax : ℕ) (hashFunction : K → UInt32) (compareFunction : K → K → ℤ) : Ht K V where
  buckets := List.replicate hmax llCreate
  size := 0
  hmax := hmax
  hashFunction := hashFunction
  compareFunction := compareFunction

namespace Ht
variable (ht : Ht K V)

def index (key : K) : ℕ := (ht.hashFunction key).toNat % ht.hmax

/-- `!compare_function(a, b)` -/
def same (a b : K) : Bool := ht.compareFunction a b == 0

/-- `ht->buckets[index]` for the index of a key -/
def bucket (key : K) : Outcome Ll := defined ht.buckets[ht.index key]?

end Ht

/-- `DIE(!new_node, "malloc() failed\n")` -/
def allocate (malloc : Malloc K V) (heap : Memory (K × V)) : Except (Stop K V) Addr :=
  match malloc heap with
  | some newNode => .ok newNode
  | none => .error (.die "malloc() failed\n" heap)

/-- The loop over the nodes of a list that `ht_has_key`, `ht_get` and `ht_remove_entry` share: the position and the
pair of the first key that compares equal. The first argument bounds the number of rounds. -/
def findNode (heap : Memory (K × V)) (isKey : K → Bool) : ℕ → ℕ → Option Addr → Outcome (Option (ℕ × K × V))
  | _,_,none => .ok none
  | 0,_,some _ => .error .outOfFuel
  | rounds+1,pos,some a => do
    let node ← deref heap (some a)
    if isKey node.data.1 then pure (some (pos,node.data)) else findNode heap isKey rounds (pos+1) node.next

def htHasKey (heap : Memory (K × V)) (ht : Ht K V) (key : K) : Outcome Bool := do
  let currList ← ht.bucket key
  let found ← findNode heap (ht.same · key) currList.size 0 currList.head
  pure found.isSome

def htGet (heap : Memory (K × V)) (ht : Ht K V) (key : K) : Outcome (Option V) := do
  let currList ← ht.bucket key
  let found ← findNode heap (ht.same · key) currList.size 0 currList.head
  pure (found.map fun entry => entry.2.2)

def htRemoveEntry (heap : Memory (K × V)) (ht : Ht K V) (key : K) : Outcome (Memory (K × V) × Ht K V) := do
  let currList ← ht.bucket key
  match ← findNode heap (ht.same · key) currList.size 0 currList.head with
  | none => pure (heap,ht)
  | some (pos,_) =>
    let (heap,currList,currNode) ← LinkedList.llRemoveNthNode heap currList pos
    let heap ← freeLlNode heap currNode
    pure (heap,{ ht with buckets := ht.buckets.set (ht.index key) currList, size := ht.size-1 })

/-- The first `if` of `ht_put`. -/
def removeOld (heap : Memory (K × V)) (ht : Ht K V) (key : K) : Outcome (Memory (K × V) × Ht K V) := do
  if ← htHasKey heap ht key then htRemoveEntry heap ht key else pure (heap,ht)

/-- The new pair is put in its list. -/
def addPair (heap : Memory (K × V)) (ht : Ht K V) (key : K) (value : V) (newNode : Addr) :
    Outcome (Memory (K × V) × Ht K V) := do
  let currList ← ht.bucket key
  let (heap,currList) ← LinkedList.llAddNthNode heap currList currList.size (some (key,value)) newNode
  pure (heap,{ ht with buckets := ht.buckets.set (ht.index key) currList, size := ht.size+1 })

/-- `ht_put` up to the test whether to double. -/
def htPutPair (malloc : Malloc K V) (heap : Memory (K × V)) (ht : Ht K V) (key : K) (value : V) :
    Except (Stop K V) (Memory (K × V) × Ht K V) := do
  let (heap,ht) ← lift (removeOld heap ht key)
  let newNode ← allocate malloc heap
  lift (addPair heap ht key value newNode)

section Doubling
variable (put : Memory (K × V) → Ht K V → K → V → Except (Stop K V) (Memory (K × V) × Ht K V))

/-- The pairs of one old list are put again. The link of an old node is read after the call, which may change the
memory. -/
def putNodes : ℕ → Memory (K × V) × Ht K V → Option Addr → Except (Stop K V) (Memory (K × V) × Ht K V)
  | _,s,none => .ok s
  | 0,_,some _ => .error (.halt .outOfFuel)
  | rounds+1,(heap,ht),some currNode => do
    let node ← lift (deref heap (some currNode))
    let (heap,ht) ← put heap ht node.data.1 node.data.2
    let node ← lift (deref heap (some currNode))
    putNodes rounds (heap,ht) node.next

/-- `put` is the recursive call of `ht_put`. The old lists are freed at the end. -/
def htDoubleHmax (heap : Memory (K × V)) (ht : Ht K V) : Except (Stop K V) (Memory (K × V) × Ht K V) := do
  let empty := { ht with size := 0, hmax := 2*ht.hmax, buckets := List.replicate (2*ht.hmax) llCreate }
  let (heap,new) ← ht.buckets.foldlM (fun s list => putNodes put list.size s list.head) (heap,empty)
  let heap ← lift (ht.buckets.foldlM llFree heap)
  pure (heap,new)

end Doubling

/-- The first argument bounds the nesting of `ht_put` in itself. The test is
`size / hmax >= LOAD_FACTOR` with the factor 3/4. -/
def htPut (malloc : Malloc K V) : ℕ → Memory (K × V) → Ht K V → K → V → Except (Stop K V) (Memory (K × V) × Ht K V)
  | 0,_,_,_,_ => .error (.halt .outOfFuel)
  | depth+1,heap,ht,key,value => do
    let (heap,ht) ← htPutPair malloc heap ht key value
    if 3*ht.hmax ≤ 4*ht.size then htDoubleHmax (htPut malloc depth) heap ht else pure (heap,ht)

def htFree (heap : Memory (K × V)) (ht : Ht K V) : Outcome (Memory (K × V)) := ht.buckets.foldlM llFree heap

end Functions

/-- A call on a table, with what `malloc` returns during it. -/
inductive HtCall (K V : Type)
  | put (malloc : Malloc K V) (key : K) (value : V)
  | remove (key : K)

namespace HtCall
variable {K V : Type}

/-- `depth` bounds the nesting of `ht_put` in itself. -/
def apply (depth : ℕ) (s : Memory (K × V) × Ht K V) : HtCall K V → Except (Stop K V) (Memory (K × V) × Ht K V)
  | .put malloc key value => htPut malloc depth s.1 s.2 key value
  | .remove key => lift (htRemoveEntry s.1 s.2 key)

/-- `malloc` returns memory that is not in use. -/
def Allowed : HtCall K V → Prop
  | .put malloc _ _ => ∀ heap a, malloc heap = some a → heap a = none
  | .remove _ => True

/-- The call without its memory. -/
def onTable : HtCall K V → LastWrite.Call K V
  | .put _ key value => .put key value
  | .remove key => .remove key

end HtCall

end ClientServerApp.HashTable
