import ClientServerApp.Base

/-! The hash table of `hashmap.c`, with its buckets as the sequences of their data. -/
namespace ClientServerApp

/-- `ll_add_nth_node` on the sequence of the data: a position past the end means the end. -/
def llAddNthNode {α : Type} (list : List α) (n : ℕ) (data : α) : List α :=
  list.insertIdx (min n list.length) data

/-- `ll_remove_nth_node` on the sequence of the data: a position past the end means the last node. -/
def llRemoveNthNode {α : Type} (list : List α) (n : ℕ) : List α :=
  list.eraseIdx (min n (list.length-1))

/-- `ht_t`. Keys and values are the copied contents of the two pointers of a `pair_t`. -/
structure Ht (K V : Type) where
  size : ℕ
  hmax : ℕ
  buckets : List (List (K × V))
  hashFunction : K → UInt32
  compareFunction : K → K → ℤ

section Operations
variable {K V : Type}

def htCreate (hmax : ℕ) (hashFunction : K → UInt32) (compareFunction : K → K → ℤ) : Ht K V where
  size := 0
  hmax := hmax
  buckets := List.replicate hmax []
  hashFunction := hashFunction
  compareFunction := compareFunction

namespace Ht
variable (ht : Ht K V)

/-- The index of the list where a key belongs; below `hmax` when that is positive. -/
def index (key : K) : ℕ := (ht.hashFunction key).toNat % ht.hmax

def bucket (i : ℕ) : List (K × V) := ht.buckets.getD i []

/-- `!compare_function(a, b)`. -/
def same (a b : K) : Bool := ht.compareFunction a b == 0

end Ht

def htHasKey (ht : Ht K V) (key : K) : Bool :=
  (ht.bucket (ht.index key)).any fun pair => ht.same pair.1 key

/-- `NULL` is `none`. -/
def htGet (ht : Ht K V) (key : K) : Option V :=
  ((ht.bucket (ht.index key)).find? fun pair => ht.same pair.1 key).map Prod.snd

def htRemoveEntry (ht : Ht K V) (key : K) : Ht K V :=
  let currList := ht.bucket (ht.index key)
  match currList.findIdx? fun pair => ht.same pair.1 key with
  | some pos =>
    { ht with buckets := ht.buckets.set (ht.index key) (llRemoveNthNode currList pos), size := ht.size-1 }
  | none => ht

/-- `ht_put` up to the test whether to double. -/
def htPutPair (ht : Ht K V) (key : K) (value : V) : Ht K V :=
  let ht := if htHasKey ht key then htRemoveEntry ht key else ht
  let currList := ht.bucket (ht.index key)
  { ht with
    buckets := ht.buckets.set (ht.index key) (llAddNthNode currList currList.length (key,value))
    size := ht.size+1 }

/-- `put` is the recursive call of `ht_put`. -/
def htDoubleHmax (put : Ht K V → K → V → Outcome (Ht K V)) (ht : Ht K V) : Outcome (Ht K V) :=
  let empty := { ht with size := 0, hmax := 2*ht.hmax, buckets := List.replicate (2*ht.hmax) [] }
  ht.buckets.foldlM (fun ht bucket => bucket.foldlM (fun ht pair => put ht pair.1 pair.2) ht) empty

/-- The first argument bounds the nesting of `ht_put` in itself. The test is
`size / hmax >= LOAD_FACTOR` with the factor 3/4. -/
def htPut : ℕ → Ht K V → K → V → Outcome (Ht K V)
  | 0,_,_,_ => .error .outOfFuel
  | depth+1,ht,key,value =>
    let ht := htPutPair ht key value
    if 3*ht.hmax ≤ 4*ht.size then htDoubleHmax (htPut depth) ht else .ok ht

end Operations

def hashUint (key : UInt32) : UInt32 :=
  let x := key
  let x := ((x >>> 16) ^^^ x) * 0x45d9f3b
  let x := ((x >>> 16) ^^^ x) * 0x45d9f3b
  (x >>> 16) ^^^ x

/-- On the characters before the NUL. -/
def hashString (key : List UInt8) : UInt32 :=
  key.foldl (fun hash c => ((hash <<< 5) + hash) + c.toUInt32) 5381

def compareUints (a b : UInt32) : ℤ := if a = b then 0 else if a < b then -1 else 1

/-- The sign of `strcmp`, on the characters before the NULs. -/
def compareStrings : List UInt8 → List UInt8 → ℤ
  | [],[] => 0
  | [],_ :: _ => -1
  | _ :: _,[] => 1
  | a :: as,b :: bs => if a = b then compareStrings as bs else if a < b then -1 else 1

lemma compareUints_eq_zero_iff (a b : UInt32) : compareUints a b = 0 ↔ a = b := by
  by_cases h : a = b
  · simp [compareUints,h]
  · by_cases hlt : a < b <;> simp [compareUints,h,hlt]

lemma compareStrings_eq_zero_iff (a b : List UInt8) : compareStrings a b = 0 ↔ a = b := by
  induction a generalizing b with
  | nil => cases b <;> simp [compareStrings]
  | cons x a ih =>
    cases b with
    | nil => simp [compareStrings]
    | cons y b =>
      by_cases h : x = y
      · simp [compareStrings,h,ih]
      · by_cases hlt : x < y <;> simp [compareStrings,h,hlt]

end ClientServerApp
