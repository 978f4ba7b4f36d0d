import ClientServerApp.HashTable.History

/-! When the hash table is doubled. Nothing is asked of the callbacks here: the comparison may be no
equivalence, and then a doubling may even drop pairs. -/
namespace ClientServerApp
open LastWrite (Call)

variable {K V : Type}

/-- The test of `ht_put` whether to double the table. -/
def Ht.Full (ht : Ht K V) : Prop := 3*ht.hmax ≤ 4*ht.size

/-- The counter counts the pairs of all buckets. -/
structure Ht.Counted (ht : Ht K V) : Prop where
  hmax_pos : 0 < ht.hmax
  buckets_length : ht.buckets.length = ht.hmax
  size_eq : ht.size = ht.buckets.flatten.length

/-- The pairs put back one after the other into an empty table of the double `hmax`, with no further
doubling. -/
def Ht.refilled (ht : Ht K V) (pairs : List (K × V)) : Ht K V :=
  pairs.foldl (fun ht pair => htPutPair ht pair.1 pair.2) (ht.emptied (2*ht.hmax))

/-- No put that `ht_double_hmax` makes doubles the table again: before each of them the table is the one refilled
so far, with the double `hmax`, and after it the table is not full. -/
def Ht.DoublesOnce (ht : Ht K V) (depth : ℕ) : Prop :=
  ∀ done pair rest, ht.buckets.flatten = done ++ pair :: rest →
    done.foldlM (fun ht pair => htPut depth ht pair.1 pair.2) (ht.emptied (2*ht.hmax)) = .ok (ht.refilled done) ∧
    (ht.refilled done).hmax = 2*ht.hmax ∧ ¬ (htPutPair (ht.refilled done) pair.1 pair.2).Full

/-- A put that succeeds adds one pair at most and counts it. -/
def PutCounts (put : Ht K V → K → V → Outcome (Ht K V)) : Prop :=
  ∀ ht key value ht', ht.Counted → put ht key value = .ok ht' → ht'.Counted ∧ ht'.size ≤ ht.size+1

namespace Ht.Counted
variable {ht : Ht K V}

lemma emptied (ht : Ht K V) {hmax : ℕ} (hpos : 0 < hmax) : (ht.emptied hmax).Counted where
  hmax_pos := hpos
  buckets_length := List.length_replicate
  size_eq := by simp [Ht.emptied]

lemma withBucket (h : ht.Counted) (key : K) {l : List (K × V)} {n : ℕ}
    (hn : n + (ht.bucket (ht.index key)).length = ht.size + l.length) :
    (ht.withBucket (ht.index key) l n).Counted where
  hmax_pos := h.hmax_pos
  buckets_length := by
    change (ht.buckets.set (ht.index key) l).length = ht.hmax
    rw [List.length_set,h.buckets_length]
  size_eq := by
    have hi : ht.index key < ht.buckets.length := by
      rw [h.buckets_length]
      exact Nat.mod_lt _ h.hmax_pos
    have hlen := length_flatten_set ht.buckets hi l
    have hsize := h.size_eq
    change n = (ht.buckets.set (ht.index key) l).flatten.length
    change n + (ht.buckets.getD (ht.index key) []).length = _ at hn
    omega

/-- A bucket has no more pairs than the table. -/
lemma bucket_le (h : ht.Counted) (key : K) : (ht.bucket (ht.index key)).length ≤ ht.size := by
  have hi : ht.index key < ht.buckets.length := by
    rw [h.buckets_length]
    exact Nat.mod_lt _ h.hmax_pos
  have hlen := length_flatten_set ht.buckets hi []
  have hsize := h.size_eq
  change (ht.buckets.getD (ht.index key) []).length ≤ _
  rw [List.length_nil] at hlen
  omega

lemma removeEntry (h : ht.Counted) (key : K) : (htRemoveEntry ht key).Counted ∧
    (htRemoveEntry ht key).size ≤ ht.size ∧ (htRemoveEntry ht key).hmax = ht.hmax := by
  have hwithout := length_bucketWithout ht key
  have hle := h.bucket_le key
  rw [htRemoveEntry_eq]
  exact ⟨h.withBucket key (by omega),Nat.sub_le _ _,rfl⟩

/-- A pair at the end of a bucket. -/
lemma addPair (h : ht.Counted) (key : K) (value : V) : (ht.withBucket (ht.index key)
    (llAddNthNode (ht.bucket (ht.index key)) (ht.bucket (ht.index key)).length (key,value))
      (ht.size+1)).Counted := by
  apply h.withBucket
  rw [llAddNthNode_length,List.length_append,List.length_singleton]
  omega

/-- The first part of `ht_put` adds at most one pair. -/
lemma putPair (h : ht.Counted) (key : K) (value : V) : (htPutPair ht key value).Counted ∧
    (htPutPair ht key value).size ≤ ht.size + 1 ∧ (htPutPair ht key value).hmax = ht.hmax := by
  obtain ⟨hremoved,hsize,hmax⟩ := h.removeEntry key
  unfold htPutPair
  split_ifs with hkey
  · exact ⟨hremoved.addPair key value,Nat.succ_le_succ hsize,hmax⟩
  · exact ⟨h.addPair key value,le_refl _,rfl⟩

lemma refilled_concat (ht : Ht K V) (pairs : List (K × V)) (pair : K × V) :
    ht.refilled (pairs ++ [pair]) = htPutPair (ht.refilled pairs) pair.1 pair.2 := by
  rw [Ht.refilled,List.foldl_append]
  rfl

/-- Pairs put back one after the other: the counter grows by at most their number. -/
lemma refilled (h : ht.Counted) (pairs : List (K × V)) : (ht.refilled pairs).Counted ∧
    (ht.refilled pairs).size ≤ pairs.length ∧ (ht.refilled pairs).hmax = 2*ht.hmax := by
  induction pairs using List.reverseRecOn with
  | nil =>
    have hpos := h.hmax_pos
    exact ⟨.emptied ht (by omega),le_refl _,rfl⟩
  | append_singleton pairs pair ih =>
    obtain ⟨hcounted,hsize,hmax⟩ := ih
    obtain ⟨hcounted',hsize',hmax'⟩ := hcounted.putPair pair.1 pair.2
    rw [refilled_concat,List.length_append,List.length_singleton]
    exact ⟨hcounted',by omega,hmax'.trans hmax⟩

lemma foldlM_put {put : Ht K V → K → V → Outcome (Ht K V)} (hput : PutCounts put) {ht' : Ht K V} (h : ht.Counted)
    {pairs : List (K × V)} (hrun : pairs.foldlM (fun ht pair => put ht pair.1 pair.2) ht = .ok ht') :
    ht'.Counted ∧ ht'.size ≤ ht.size + pairs.length := by
  induction pairs generalizing ht with
  | nil =>
    obtain rfl := Except.ok.inj hrun
    exact ⟨h,le_refl _⟩
  | cons pair pairs ih =>
    rw [List.foldlM_cons] at hrun
    obtain ⟨ht₁,hfirst,hrest⟩ := Outcome.bind_eq_ok.mp hrun
    obtain ⟨h₁,hsize₁⟩ := hput _ _ _ _ h hfirst
    obtain ⟨h',hsize'⟩ := ih h₁ hrest
    rw [List.length_cons]
    exact ⟨h',by omega⟩

/-- Doubling counts the pairs anew. -/
lemma double_of_ok {put : Ht K V → K → V → Outcome (Ht K V)} (hput : PutCounts put) {ht' : Ht K V} (h : ht.Counted)
    (hrun : htDoubleHmax put ht = .ok ht') : ht'.Counted ∧ ht'.size ≤ ht.size := by
  have hpos := h.hmax_pos
  rw [htDoubleHmax,foldlM_flatten] at hrun
  obtain ⟨h',hsize⟩ := foldlM_put hput (.emptied ht (by omega)) hrun
  rw [← h.size_eq] at hsize
  exact ⟨h',hsize.trans_eq (Nat.zero_add _)⟩

lemma htPut_counts (depth : ℕ) : PutCounts (htPut depth : Ht K V → _) := by
  induction depth with
  | zero => exact fun _ _ _ _ _ hrun => nomatch hrun
  | succ depth ih =>
    intro ht key value ht' h hrun
    obtain ⟨hcounted,hsize,-⟩ := h.putPair key value
    rw [htPut] at hrun
    split_ifs at hrun
    · obtain ⟨h',hsize'⟩ := hcounted.double_of_ok ih hrun
      exact ⟨h',hsize'.trans hsize⟩
    · obtain rfl := Except.ok.inj hrun
      exact ⟨hcounted,hsize⟩

lemma not_full_refilled (h : ht.Counted) {pairs : List (K × V)} (hload : 4*(pairs.length+1) < 6*ht.hmax)
    (pair : K × V) : ¬ (htPutPair (ht.refilled pairs) pair.1 pair.2).Full := by
  obtain ⟨hcounted,hsize,hmax⟩ := h.refilled pairs
  obtain ⟨-,hsize',hmax'⟩ := hcounted.putPair pair.1 pair.2
  unfold Ht.Full
  omega

/-- Puts that stay below the load factor only refill the table. -/
lemma refill_run (h : ht.Counted) (depth : ℕ) {pairs : List (K × V)} (hload : 4*pairs.length < 6*ht.hmax) :
    pairs.foldlM (fun ht pair => htPut (depth+1) ht pair.1 pair.2) (ht.emptied (2*ht.hmax)) =
      .ok (ht.refilled pairs) := by
  induction pairs using List.reverseRecOn with
  | nil => rfl
  | append_singleton pairs pair ih =>
    rw [List.length_append,List.length_singleton] at hload
    have hput : htPut (depth+1) (ht.refilled pairs) pair.1 pair.2 =
        .ok (htPutPair (ht.refilled pairs) pair.1 pair.2) := if_neg (h.not_full_refilled hload pair)
    rw [List.foldlM_append,ih (by omega),refilled_concat]
    change htPut (depth+1) (ht.refilled pairs) pair.1 pair.2 >>= pure = _
    rw [hput]
    rfl

/-- As long as the pairs fit into twice as many buckets, no put of a doubling doubles the table again. -/
lemma doublesOnce (h : ht.Counted) (hload : 4*ht.size < 6*ht.hmax) (depth : ℕ) : ht.DoublesOnce (depth+1) := by
  intro done pair rest hpairs
  have hlength := congrArg List.length hpairs
  rw [← h.size_eq,List.length_append,List.length_cons] at hlength
  exact ⟨h.refill_run depth (by omega),(h.refilled done).2.2,h.not_full_refilled (by omega) pair⟩

lemma double (h : ht.Counted) (hload : 4*ht.size < 6*ht.hmax) (depth : ℕ) :
    htDoubleHmax (htPut (depth+1)) ht = .ok (ht.refilled ht.buckets.flatten) := by
  rw [h.size_eq] at hload
  rw [htDoubleHmax,foldlM_flatten]
  exact h.refill_run depth hload

end Ht.Counted

/-- Between calls the table is below its load factor. -/
structure Ht.Roomy (ht : Ht K V) : Prop extends ht.Counted where
  load : 4*ht.size < 3*ht.hmax

namespace Ht.Roomy
variable {ht : Ht K V} (h : ht.Roomy)
include h

/-- One more pair fits into twice as many buckets, also when there were one or two. -/
lemma load_putPair (key : K) (value : V) :
    4*(htPutPair ht key value).size < 6*(htPutPair ht key value).hmax := by
  obtain ⟨-,hsize,hmax⟩ := h.putPair key value
  have hload := h.load
  have hpos := h.hmax_pos
  obtain hone | htwo : ht.hmax = 1 ∨ 2 ≤ ht.hmax := by omega
  · omega
  · omega

/-- One call of `ht_put`: it doubles the table if it is full, once, and leaves it below its load factor. -/
lemma put (depth : ℕ) (key : K) (value : V) : ∃ ht', htPut (depth+2) ht key value = .ok ht' ∧ ht'.Roomy ∧
    (¬ (htPutPair ht key value).Full ∧ ht' = htPutPair ht key value ∨ (htPutPair ht key value).Full ∧
      ht' = (htPutPair ht key value).refilled (htPutPair ht key value).buckets.flatten ∧
      (htPutPair ht key value).DoublesOnce (depth+1)) := by
  obtain ⟨hcounted,-,hmax⟩ := h.putPair key value
  have hload := h.load_putPair key value
  by_cases hfull : (htPutPair ht key value).Full
  · obtain ⟨hcounted',hsize',hmax'⟩ := hcounted.refilled (htPutPair ht key value).buckets.flatten
    rw [← hcounted.size_eq] at hsize'
    refine ⟨_,(if_pos hfull).trans (hcounted.double hload depth),⟨hcounted',by omega⟩,.inr ⟨hfull,rfl,?_⟩⟩
    exact hcounted.doublesOnce hload depth
  · exact ⟨_,if_neg hfull,⟨hcounted,not_le.mp hfull⟩,.inl ⟨hfull,rfl⟩⟩

lemma call (depth : ℕ) (c : Call K V) : ∃ ht', ht.call (depth+2) c = .ok ht' ∧ ht'.Roomy := by
  cases c with
  | put key value =>
    obtain ⟨ht',hrun,hroomy,-⟩ := h.put depth key value
    exact ⟨ht',hrun,hroomy⟩
  | remove key =>
    obtain ⟨hcounted,hsize,hmax⟩ := h.removeEntry key
    have hload := h.load
    exact ⟨_,rfl,hcounted,by omega⟩

end Ht.Roomy

section Histories
variable {hashFunction : K → UInt32} {compareFunction : K → K → ℤ} {hmax : ℕ}

lemma htAfter_roomy (hpos : 1 ≤ hmax) (depth : ℕ) (calls : List (Call K V)) :
    ∃ ht, htAfter (depth+2) hmax hashFunction compareFunction calls = .ok ht ∧ ht.Roomy := by
  induction calls using List.reverseRecOn with
  | nil => exact ⟨_,rfl,.emptied (htCreate hmax hashFunction compareFunction) hpos,by change 4*0 < 3*hmax; omega⟩
  | append_singleton calls c ih =>
    obtain ⟨ht,hrun,hroomy⟩ := ih
    obtain ⟨ht',hcall,hroomy'⟩ := hroomy.call depth c
    refine ⟨ht',?_,hroomy'⟩
    rw [htAfter,List.foldlM_append]
    change htAfter (depth+2) hmax hashFunction compareFunction calls >>= _ = _
    rw [hrun]
    change ht.call (depth+2) c >>= pure = _
    rw [hcall]
    rfl

/-- Resizing is bounded: after any calls on a created table it is below its load factor, a further `ht_put`
returns at any bound on its nesting from two on, and it doubles the table at most once: no put inside the doubling
does so again. As long as `hmax` is below `2^31`, the double is in the range of `u_int`. -/
theorem resizing_bounded (hpos : 1 ≤ hmax) (depth : ℕ) (calls : List (Call K V)) :
    ∃ ht, htAfter (depth+2) hmax hashFunction compareFunction calls = .ok ht ∧ 4*ht.size < 3*ht.hmax ∧
      ∀ key value, ∃ ht', htPut (depth+2) ht key value = .ok ht' ∧ 4*ht'.size < 3*ht'.hmax ∧
        (¬ (htPutPair ht key value).Full ∧ ht' = htPutPair ht key value ∧ ht'.hmax = ht.hmax ∨
          (htPutPair ht key value).Full ∧ (htPutPair ht key value).DoublesOnce (depth+1) ∧
          ht' = (htPutPair ht key value).refilled (htPutPair ht key value).buckets.flatten ∧
          ht'.hmax = 2*ht.hmax) := by
  obtain ⟨ht,hrun,hroomy⟩ := @htAfter_roomy K V hashFunction compareFunction hmax hpos depth calls
  refine ⟨ht,hrun,hroomy.load,fun key value => ?_⟩
  obtain ⟨hcounted,-,hmax⟩ := hroomy.putPair key value
  obtain ⟨ht',hput,hroomy',hcases⟩ := hroomy.put depth key value
  refine ⟨ht',hput,hroomy'.load,?_⟩
  rcases hcases with ⟨hfull,rfl⟩ | ⟨hfull,rfl,honce⟩
  · exact .inl ⟨hfull,rfl,hmax⟩
  · refine .inr ⟨hfull,honce,rfl,?_⟩
    rw [(hcounted.refilled _).2.2,hmax]

/-- A table of one bucket, doubled by its first pair. -/
theorem resizing_bounded_one : ∃ ht : Ht UInt32 ℕ, htAfter 2 1 hashUint compareUints [.put 4 7] = .ok ht ∧
    4*ht.size < 3*ht.hmax := by
  obtain ⟨ht,hrun,hload,-⟩ := @resizing_bounded UInt32 ℕ hashUint compareUints 1 (by decide) 0 [.put 4 7]
  exact ⟨ht,hrun,hload⟩

end Histories

end ClientServerApp
