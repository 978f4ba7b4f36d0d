import ClientServerApp.HashTable.Invariant
import ClientServerApp.Library.LastWrite

/-! Histories of calls on a created hash table, and the finite map they leave. -/
namespace ClientServerApp
open AssocList
open LastWrite (Call valueAfter)

variable {K V : Type}

/-- One call; `depth` bounds the nesting of `ht_put` in itself. -/
def Ht.call (depth : ℕ) (ht : Ht K V) : Call K V → Outcome (Ht K V)
  | .put key value => htPut depth ht key value
  | .remove key => .ok (htRemoveEntry ht key)

/-- The table after a sequence of calls on a created one. -/
def htAfter (depth hmax : ℕ) (hashFunction : K → UInt32) (compareFunction : K → K → ℤ) (calls : List (Call K V)) :
    Outcome (Ht K V) := calls.foldlM (Ht.call depth) (htCreate hmax hashFunction compareFunction)

/-- What the table is for: the keys are told apart by the comparison and found by their hash. -/
structure Ht.Represents (ht : Ht K V) (hashFunction : K → UInt32) (compareFunction : K → K → ℤ)
    (map : K → Option V) : Prop where
  get_eq (key : K) : htGet ht key = map key
  hasKey_eq (key : K) : htHasKey ht key = (map key).isSome
  /-- No key occurs twice. -/
  distinct : ht.buckets.flatten.Pairwise fun p q => compareFunction p.1 q.1 ≠ 0
  buckets_length : ht.buckets.length = ht.hmax
  placed {i : ℕ} {pair : K × V} : pair ∈ ht.bucket i → (hashFunction pair.1).toNat % ht.hmax = i
  size_eq : ht.size = (ht.buckets.map List.length).sum

section Calls
variable {hashFunction : K → UInt32} {compareFunction : K → K → ℤ}

/-- A valid table with the callbacks. -/
structure Ht.ValidFor (ht : Ht K V) (hashFunction : K → UInt32) (compareFunction : K → K → ℤ) : Prop where
  valid : ht.Valid
  hash_eq : ht.hashFunction = hashFunction
  compare_eq : ht.compareFunction = compareFunction

lemma Ht.ValidFor.represents {ht : Ht K V} (h : ht.ValidFor hashFunction compareFunction) {map : K → Option V}
    (hmap : ∀ key, htGet ht key = map key) : ht.Represents hashFunction compareFunction map where
  get_eq := hmap
  hasKey_eq key := by rw [htHasKey_eq,hmap]
  distinct := by
    refine h.valid.distinct_flatten.imp fun {p q} hpq => ?_
    rw [← h.compare_eq]
    simpa [Ht.same] using hpq
  buckets_length := h.valid.buckets_length
  placed hpair := by
    rw [← h.hash_eq]
    exact h.valid.placed hpair
  size_eq := by rw [h.valid.size_eq,List.length_flatten]

/-- One call on a valid table succeeds and changes what is found for its key only. -/
lemma Ht.ValidFor.call {ht : Ht K V} (h : ht.ValidFor hashFunction compareFunction) (depth : ℕ) (c : Call K V) :
    ∃ ht', ht.call (depth+2) c = .ok ht' ∧ ht'.ValidFor hashFunction compareFunction ∧
      ∀ k, htGet ht' k = if (compareFunction c.key k == 0) = true then c.value else htGet ht k := by
  have hsame : ht.same = fun a b => compareFunction a b == 0 := by
    funext a b
    rw [Ht.same,h.compare_eq]
  cases c with
  | put key value =>
    obtain ⟨ht',hrun,hvalid,hfun,hget⟩ := h.valid.put depth key value
    refine ⟨ht',hrun,⟨hvalid,hfun.1.trans h.hash_eq,hfun.2.trans h.compare_eq⟩,fun k => ?_⟩
    rw [hget,hsame]
    rfl
  | remove key =>
    obtain ⟨hvalid,hfun,hget⟩ := h.valid.removeEntry key
    refine ⟨_,rfl,⟨hvalid,hfun.1.trans h.hash_eq,hfun.2.trans h.compare_eq⟩,fun k => ?_⟩
    rw [hget,hsame]
    rfl

/-- What a put adds to the pairs of the table stays through a doubling, and nothing else comes or goes. -/
lemma Ht.Valid.put_pairs {ht : Ht K V} (h : ht.Valid) (depth : ℕ) (key : K) (value : V) :
    ∃ ht', htPut (depth+2) ht key value = .ok ht' ∧
      ht'.buckets.flatten.Perm (htPutPair ht key value).buckets.flatten ∧
      ht'.size = (htPutPair ht key value).size ∧
      ht'.hmax = if 3*ht.hmax ≤ 4*(htPutPair ht key value).size then 2*ht.hmax else ht.hmax := by
  obtain ⟨hshape,-,hmax,-⟩ := htPutPair_spec h.toShaped key value
  rw [htPut,hmax]
  split_ifs with hdouble
  · obtain ⟨ht',hrun,-,-,hmax',hsize,hpairs,-⟩ := htDoubleHmax_spec hshape (h.load_putPair key value) depth
    exact ⟨ht',hrun,hpairs,hsize,by rw [hmax',hmax]⟩
  · exact ⟨_,rfl,.refl _,rfl,hmax⟩

/-- The counter of a table whose keys are compared by equality counts the keys that have a value. -/
lemma Ht.Shaped.size_eq_length {ht : Ht K V} (h : ht.Shaped) (hsame : ∀ a b, ht.same a b = true ↔ a = b)
    {keys : List K}
    (hnodup : keys.Nodup) (hkeys : ∀ k, k ∈ keys ↔ (htGet ht k).isSome) : ht.size = keys.length := by
  rw [h.size_eq]
  refine h.distinct_flatten.length_eq hsame hnodup fun k => ?_
  rw [hkeys,h.lookup_flatten]

/-- The hash table is a finite map: any calls on a created table succeed, and the table then answers
every key as the map of the values put and not removed; a put that doubles it keeps all pairs. -/
theorem hashTable_finiteMap (hcompare : KeyEquivalence fun a b => compareFunction a b == 0)
    (hhash : ∀ {a b : K}, compareFunction a b = 0 → hashFunction a = hashFunction b) {hmax : ℕ} (hpos : 1 ≤ hmax)
    (depth : ℕ) (calls : List (Call K V)) :
    ∃ ht, htAfter (depth+2) hmax hashFunction compareFunction calls = .ok ht ∧
      ht.Represents hashFunction compareFunction (valueAfter (fun a b => compareFunction a b == 0) calls) ∧
      ∀ key value, ∃ ht', htPut (depth+2) ht key value = .ok ht' ∧
        ht'.buckets.flatten.Perm (htPutPair ht key value).buckets.flatten ∧
        ht'.size = (htPutPair ht key value).size ∧
        ht'.hmax = if 3*ht.hmax ≤ 4*(htPutPair ht key value).size then 2*ht.hmax else ht.hmax := by
  have hcreate : (htCreate hmax hashFunction compareFunction : Ht K V).ValidFor hashFunction compareFunction :=
    ⟨htCreate_valid hpos hcompare hhash,rfl,rfl⟩
  have hstep : ∀ (ht : Ht K V) (c : Call K V), True → ht.ValidFor hashFunction compareFunction →
      ∃ ht', ht.call (depth+2) c = .ok ht' ∧ ht'.ValidFor hashFunction compareFunction ∧
        ∀ k, htGet ht' k = if (compareFunction c.key k == 0) = true then c.value else htGet ht k :=
    fun _ c _ h => h.call depth c
  obtain ⟨ht,hrun,h,hget⟩ := @LastWrite.foldlM_spec _ _ _ _ _ (fun a b => compareFunction a b == 0) _ id _ _ _
    hstep _ hcreate (htGet_create hmax hashFunction compareFunction) calls fun _ _ => trivial
  rw [List.map_id] at hget
  exact ⟨ht,hrun,h.represents hget,h.valid.put_pairs depth⟩

/-- Both instances of the server, each through a doubling. -/
theorem hashTable_finiteMap_instances :
    (∃ ht, htAfter 2 2 hashString compareStrings [.put (chars "a") 5,.put (chars "b") 6,.remove (chars "a")] =
        .ok ht ∧ htGet ht (chars "a") = none ∧ htGet ht (chars "b") = some 6) ∧
    ∃ ht, htAfter 2 1 hashUint compareUints [.put 4 1,.put 5 2,.put 4 3] = .ok ht ∧
      htGet ht 4 = some 3 ∧ htHasKey ht 6 = false := by
  constructor
  · obtain ⟨ht,hrun,h,-⟩ := hashTable_finiteMap keyEquivalence_strings
      (fun {a b} hab => by rw [(compareStrings_eq_zero_iff a b).mp hab]) (show 1 ≤ 2 by decide) 0
      [.put (chars "a") 5,.put (chars "b") 6,.remove (chars "a")]
    refine ⟨ht,hrun,?_,?_⟩
    · rw [h.get_eq]
      decide +kernel
    · rw [h.get_eq]
      decide +kernel
  · obtain ⟨ht,hrun,h,-⟩ := hashTable_finiteMap keyEquivalence_uints
      (fun {a b} hab => by rw [(compareUints_eq_zero_iff a b).mp hab]) (show 1 ≤ 1 by decide) 0
      [.put 4 1,.put 5 2,.put 4 3]
    refine ⟨ht,hrun,?_,?_⟩
    · rw [h.get_eq]
      decide +kernel
    · rw [h.hasKey_eq]
      decide +kernel

end Calls

end ClientServerApp
