import ClientServerApp.HashTable.Model
import ClientServerApp.Library.Chain

/-! The singly linked list of `list.c` with its pointers. `NULL` is `none`, and an access at an address
that is not in use has no defined behaviour. -/
namespace ClientServerApp.LinkedList
open Chain

/-- The address of a node. -/
abbrev Addr := ℕ

/-- `ll_node_t`, with the data that it points to. -/
abbrev LlNode (α : Type) := Node Addr α

abbrev Memory (α : Type) := Heap Addr α

/-- `ll_t` -/
structure Ll where
  head : Option Addr
  tail : Option Addr
  size : ℕ
  deriving DecidableEq, Repr

section Functions
variable {α : Type}

/-- `*p` -/
def deref (heap : Memory α) (p : Option Addr) : Outcome (LlNode α) := defined (p.bind heap)

/-- `p->next = next` -/
def setNext (heap : Memory α) (p next : Option Addr) : Outcome (Memory α) := do
  let a ← defined p
  let node ← deref heap p
  pure (Function.update heap a (some { node with next := next }))

/-- `n` times `curr_node = curr_node->next` -/
def walk (heap : Memory α) : Option Addr → ℕ → Outcome (Option Addr)
  | p,0 => .ok p
  | p,n+1 => do
    let node ← deref heap p
    walk heap node.next n

def llCreate : Ll := ⟨none,none,0⟩

def llGetNthNode (heap : Memory α) (list : Ll) (n : ℕ) : Outcome (Option Addr) :=
  if list.head = none then .ok none
  else if list.size ≤ n then .ok none
  else if n = list.size-1 then .ok list.tail
  else walk heap list.head n

/-- The removed node is returned; its memory stays in use until the caller frees it. -/
def llRemoveNthNode (heap : Memory α) (list : Ll) (n : ℕ) : Outcome (Memory α × Ll × Option Addr) :=
  if list.head = none then .ok (heap,list,none)
  else
    let n := if list.size ≤ n then list.size-1 else n
    if n = 0 then do
      let node ← deref heap list.head
      pure (heap,{ list with head := node.next, size := list.size-1 },list.head)
    else do
      let prevNode ← llGetNthNode heap list (n-1)
      let prev ← deref heap prevNode
      let rmv ← deref heap prev.next
      let heap ← setNext heap prevNode rmv.next
      let list := if n = list.size-1 then { list with tail := prevNode } else list
      pure (heap,{ list with size := list.size-1 },prev.next)

/-- The first `if` of `ll_add_nth_node`: at the beginning. -/
def addAtHead (heap : Memory α) (list : Ll) (n : ℕ) (newNode : Addr) : Outcome (Memory α × Ll) :=
  if n = 0 then do
    let heap ← setNext heap (some newNode) list.head
    pure (heap,{ list with head := some newNode })
  else pure (heap,list)

/-- The second `if`: in the middle. -/
def addInMiddle (heap : Memory α) (list : Ll) (n : ℕ) (newNode : Addr) : Outcome (Memory α) :=
  if 1 ≤ n ∧ n < list.size then do
    let prevNode ← llGetNthNode heap list (n-1)
    let prev ← deref heap prevNode
    let heap ← setNext heap prevNode (some newNode)
    setNext heap (some newNode) prev.next
  else pure heap

/-- The third `if`: at the end. -/
def addAtEnd (heap : Memory α) (list : Ll) (n : ℕ) (newNode : Addr) : Outcome (Memory α × Ll) :=
  if n = list.size then do
    let heap ← if list.size ≠ 0 then do
        let heap ← setNext heap list.tail (some newNode)
        setNext heap (some newNode) none
      else pure heap
    pure (heap,{ list with tail := some newNode })
  else pure (heap,list)

/-- `newNode` is what `malloc` returns, and `none` stands for the uninitialised link there. -/
def llAddNthNode (heap : Memory α) (list : Ll) (n : ℕ) (data : Option α) (newNode : Addr) :
    Outcome (Memory α × Ll) :=
  match data with
  | none => .ok (heap,list)
  | some data => do
    let n := if list.size < n then list.size else n
    let heap := Function.update heap newNode (some ⟨none,data⟩)
    let (heap,list) ← addAtHead heap list n newNode
    let heap ← addInMiddle heap list n newNode
    let (heap,list) ← addAtEnd heap list n newNode
    pure (heap,{ list with size := list.size+1 })

/-- The node is freed with its data, so it must be in use. -/
def freeLlNode (heap : Memory α) (node : Option Addr) : Outcome (Memory α) := do
  let a ← defined node
  let _ ← deref heap node
  pure (Function.update heap a none)

/-- The loop of `ll_free`; the first argument bounds the number of its rounds. -/
def freeNodes : ℕ → Memory α → Option Addr → Outcome (Memory α)
  | _,heap,none => .ok heap
  | 0,_,some _ => .error .outOfFuel
  | rounds+1,heap,some a => do
    let node ← deref heap (some a)
    let heap ← freeLlNode heap (some a)
    freeNodes rounds heap node.next

def llFree (heap : Memory α) (list : Ll) : Outcome (Memory α) := freeNodes list.size heap list.head

end Functions

/-- A list and the nodes that removals have handed to the caller, who has not freed them yet. -/
structure State (α : Type) where
  heap : Memory α
  list : Ll
  handed : List Addr

/-- One call on the list, or a call of `free_ll_node` on a node that was removed. -/
inductive LlOp (α : Type)
  | add (n : ℕ) (data : Option α) (newNode : Addr)
  | remove (n : ℕ)
  | freeNode (node : Addr)

namespace LlOp
variable {α : Type}

def apply (s : State α) : LlOp α → Outcome (State α)
  | .add n data newNode => do
    let (heap,list) ← llAddNthNode s.heap s.list n data newNode
    pure { s with heap := heap, list := list }
  | .remove n => do
    let (heap,list,node) ← llRemoveNthNode s.heap s.list n
    pure ⟨heap,list,node.toList ++ s.handed⟩
  | .freeNode node => .ok { s with heap := Function.update s.heap node none, handed := s.handed.erase node }

/-- `malloc` returns memory that is not in use, and the caller frees removed nodes only, and once. -/
def Allowed (s : State α) : LlOp α → Prop
  | .add _ _ newNode => s.heap newNode = none
  | .remove _ => True
  | .freeNode node => node ∈ s.handed

/-- What the call means for the sequence of the data. -/
def onData (data : List α) : LlOp α → List α
  | .add n (some x) _ => ClientServerApp.llAddNthNode data n x
  | .add _ none _ => data
  | .remove n => ClientServerApp.llRemoveNthNode data n
  | .freeNode _ => data

end LlOp

/-- The states that sequences of calls lead to from `ll_create`, in any memory. -/
inductive Run {α : Type} : List (LlOp α) → State α → Prop
  | create (heap : Memory α) : Run [] ⟨heap,llCreate,[]⟩
  | step {ops : List (LlOp α)} {s s' : State α} {op : LlOp α} (run : Run ops s) (allowed : op.Allowed s)
      (apply : op.apply s = .ok s') : Run (ops ++ [op]) s'

/-- The sequence of the data after the calls. -/
def dataAfter {α : Type} (ops : List (LlOp α)) : List α := ops.foldl LlOp.onData []

end ClientServerApp.LinkedList
