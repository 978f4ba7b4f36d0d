import ClientServerApp.HashTable.Model
import ClientServerApp.Library.AssocList

/-! The hash table is a finite map: what every call does to the answers of `ht_get`, also when
the table is doubled. -/
namespace ClientServerApp
open AssocList

variable {K V : Type}

/-- The shape of a table: its keys are compared by an equivalence that the hash function respects,
every pair lies in the bucket of its key, no key occurs twice and the counter counts the pairs. -/
structure Ht.Shaped (ht : Ht K V) : Prop where
  equivalence : KeyEquivalence ht.same
  hash_congr {a b : K} : ht.same a b = true → ht.hashFunction a = ht.hashFunction b
  hmax_pos : 0 < ht.hmax
  buckets_length : ht.buckets.length = ht.hmax
  placed {i : ℕ} {pair : K × V} : pair ∈ ht.bucket i → ht.index pair.1 = i
  distinct (i : ℕ) : Distinct ht.same (ht.bucket i)
  size_eq : ht.size = ht.buckets.flatten.length

/-- Between calls the table is also below its load factor. -/
structure Ht.Valid (ht : Ht K V) : Prop extends ht.Shaped where
  load : 4*ht.size < 3*ht.hmax

/-- The list of bucket `i` replaced. -/
def Ht.withBucket (ht : Ht K V) (i : ℕ) (l : List (K × V)) (size : ℕ) : Ht K V :=
  { ht with buckets := ht.buckets.set i l, size := size }

@[simp] lemma Ht.withBucket_index (ht : Ht K V) (i : ℕ) (l : List (K × V)) (n : ℕ) (key : K) :
    (ht.withBucket i l n).index key = ht.index key := rfl

@[simp] lemma llAddNthNode_length {α : Type} (l : List α) (x : α) : llAddNthNode l l.length x = l ++ [x] := by
  simp [llAddNthNode]

lemma htGet_eq (ht : Ht K V) (key : K) :
    htGet ht key = lookup ht.same (ht.bucket (ht.index key)) key := rfl

lemma htHasKey_eq (ht : Ht K V) (key : K) : htHasKey ht key = (htGet ht key).isSome := by
  rw [Bool.eq_iff_iff,htGet_eq,lookup_isSome_iff]
  simp [htHasKey]

/-- Replacing one list among several, up to the order of the elements. -/
lemma flatten_set_perm {α : Type} (ls : List (List α)) {i : ℕ} (hi : i < ls.length) (l : List α) :
    ((ls.set i l).flatten ++ ls.getD i []).Perm (ls.flatten ++ l) := by
  induction ls generalizing i with
  | nil => simp at hi
  | cons x ls ih =>
    cases i with
    | zero =>
      change ((l ++ ls.flatten) ++ x).Perm ((x ++ ls.flatten) ++ l)
      rw [List.append_assoc]
      exact List.perm_append_comm.trans (List.perm_append_comm.append_right l)
    | succ i =>
      have hrest := ih (by simpa using hi)
      rw [List.set_cons_succ,List.flatten_cons,List.flatten_cons,List.getD_cons_succ,List.append_assoc,
        List.append_assoc]
      exact hrest.append_left x

lemma length_flatten_set {α : Type} (ls : List (List α)) {i : ℕ} (hi : i < ls.length) (l : List α) :
    (ls.set i l).flatten.length + (ls.getD i []).length = ls.flatten.length + l.length := by
  have hlen := (flatten_set_perm ls hi l).length_eq
  rwa [List.length_append,List.length_append] at hlen

section Update
variable {ht : Ht K V}

lemma Ht.index_lt (h : ht.Shaped) (key : K) : ht.index key < ht.hmax := Nat.mod_lt _ h.hmax_pos

lemma Ht.Shaped.index_congr (h : ht.Shaped) {a b : K} (hab : ht.same a b = true) :
    ht.index a = ht.index b := by rw [Ht.index,Ht.index,h.hash_congr hab]

lemma Ht.Shaped.bucket_withBucket (h : ht.Shaped) {i : ℕ} (hi : i < ht.hmax) (l : List (K × V)) (n j : ℕ) :
    (ht.withBucket i l n).bucket j = if j = i then l else ht.bucket j := by
  change (ht.buckets.set i l).getD j [] = if j = i then l else ht.buckets.getD j []
  have hlen : i < ht.buckets.length := by rwa [h.buckets_length]
  by_cases hj : j = i
  · subst hj
    simp [List.getD,hlen]
  · have hne : i ≠ j := Ne.symm hj
    simp [List.getD,hj,hne]

/-- Replacing one bucket keeps the shape when the new list fits there. -/
lemma Ht.Shaped.withBucket (h : ht.Shaped) {i n : ℕ} (hi : i < ht.hmax) {l : List (K × V)}
    (hplaced : ∀ pair ∈ l, ht.index pair.1 = i) (hdistinct : Distinct ht.same l)
    (hn : n + (ht.bucket i).length = ht.size + l.length) : (ht.withBucket i l n).Shaped where
  equivalence := h.equivalence
  hash_congr := h.hash_congr
  hmax_pos := h.hmax_pos
  buckets_length := by
    change (ht.buckets.set i l).length = ht.hmax
    rw [List.length_set,h.buckets_length]
  placed := by
    intro j pair hpair
    change ht.index pair.1 = j
    rw [h.bucket_withBucket hi] at hpair
    by_cases hj : j = i
    · rw [if_pos hj] at hpair
      rw [hj]
      exact hplaced pair hpair
    · rw [if_neg hj] at hpair
      exact h.placed hpair
  distinct := by
    intro j
    change Distinct ht.same _
    rw [h.bucket_withBucket hi]
    by_cases hj : j = i
    · rwa [if_pos hj]
    · rw [if_neg hj]
      exact h.distinct j
  size_eq := by
    have hlen := length_flatten_set ht.buckets (h.buckets_length ▸ hi) l
    have hsize := h.size_eq
    change n = (ht.buckets.set i l).flatten.length
    change n + (ht.buckets.getD i []).length = _ at hn
    omega

lemma Ht.Shaped.htGet_withBucket (h : ht.Shaped) {i : ℕ} (hi : i < ht.hmax) (l : List (K × V)) (n : ℕ)
    (key : K) : htGet (ht.withBucket i l n) key =
      if ht.index key = i then lookup ht.same l key else htGet ht key := by
  change lookup ht.same ((ht.withBucket i l n).bucket (ht.index key)) key = _
  rw [h.bucket_withBucket hi]
  by_cases hk : ht.index key = i
  · rw [if_pos hk,if_pos hk]
  · rw [if_neg hk,if_neg hk]
    rfl

/-- The bucket of a key without the key. -/
def Ht.bucketWithout (ht : Ht K V) (key : K) : List (K × V) :=
  AssocList.erase ht.same (ht.bucket (ht.index key)) key

lemma htRemoveEntry_eq (ht : Ht K V) (key : K) : htRemoveEntry ht key =
    ht.withBucket (ht.index key) (ht.bucketWithout key) (ht.size - (htGet ht key).toList.length) := by
  rw [htRemoveEntry]
  cases hpos : (ht.bucket (ht.index key)).findIdx? fun pair => ht.same pair.1 key with
  | none =>
    have habsent : ∀ pair ∈ ht.bucket (ht.index key), ht.same pair.1 key = false :=
      List.findIdx?_eq_none_iff.mp hpos
    have hget : htGet ht key = none := by
      rw [htGet_eq]
      exact lookup_eq_none_iff.mpr habsent
    have hkeep : ht.bucketWithout key = ht.bucket (ht.index key) := by
      refine List.eraseP_of_forall_not fun pair hpair => ?_
      simp [habsent pair hpair]
    have hset : ht.buckets.set (ht.index key) (ht.bucket (ht.index key)) = ht.buckets := by
      rw [Ht.bucket]
      by_cases hi : ht.index key < ht.buckets.length
      · simp [List.getD,hi]
      · exact List.set_eq_of_length_le (by omega)
    simp [Ht.withBucket,hget,hkeep,hset]
  | some pos =>
    have hlt : pos < (ht.bucket (ht.index key)).length := (List.findIdx?_eq_some_iff_getElem.mp hpos).1
    have hmin : min pos ((ht.bucket (ht.index key)).length - 1) = pos := by omega
    have hsome : (htGet ht key).isSome := by
      rw [← htHasKey_eq,htHasKey]
      rw [← List.findIdx?_isSome,hpos]
      rfl
    obtain ⟨v,hv⟩ := Option.isSome_iff_exists.mp hsome
    simp only [hv,Option.toList_some,List.length_singleton,Ht.withBucket,llRemoveNthNode,hmin,
      Ht.bucketWithout,eraseIdx_eq_erase hpos]

lemma htPutPair_eq (h : ht.Shaped) (key : K) (value : V) : htPutPair ht key value =
    ht.withBucket (ht.index key) (ht.bucketWithout key ++ [(key,value)])
      (ht.size - (htGet ht key).toList.length + 1) := by
  -- the entry is removed first; when there is none the removal changes nothing
  have hremove : (if htHasKey ht key then htRemoveEntry ht key else ht) =
      ht.withBucket (ht.index key) (ht.bucketWithout key) (ht.size - (htGet ht key).toList.length) := by
    by_cases hkey : htHasKey ht key
    · rw [if_pos hkey,htRemoveEntry_eq]
    · have hpos : (ht.bucket (ht.index key)).findIdx? (fun pair => ht.same pair.1 key) = none := by
        rw [htHasKey,List.any_eq_true] at hkey
        rw [List.findIdx?_eq_none_iff]
        intro pair hpair
        rw [Bool.eq_false_iff]
        exact fun hsame => hkey ⟨pair,hpair,hsame⟩
      rw [if_neg hkey,← htRemoveEntry_eq,htRemoveEntry,hpos]
  have hbucket := h.bucket_withBucket (ht.index_lt h key) (ht.bucketWithout key)
    (ht.size - (htGet ht key).toList.length) (ht.index key)
  rw [if_pos rfl] at hbucket
  rw [htPutPair,hremove]
  simp only [Ht.withBucket_index,hbucket,llAddNthNode_length]
  simp [Ht.withBucket]

lemma lookup_bucketWithout (h : ht.Shaped) (key k : K) : lookup ht.same (ht.bucketWithout key) k =
    if ht.same key k then none else lookup ht.same (ht.bucket (ht.index key)) k :=
  h.equivalence.lookup_erase (h.distinct _)

lemma length_bucketWithout (ht : Ht K V) (key : K) :
    (ht.bucketWithout key).length + (htGet ht key).toList.length = (ht.bucket (ht.index key)).length :=
  length_erase key

lemma Ht.Shaped.get_le_size (h : ht.Shaped) (key : K) : (htGet ht key).toList.length ≤ ht.size := by
  have hwithout := length_bucketWithout ht key
  have hset := length_flatten_set ht.buckets (h.buckets_length ▸ ht.index_lt h key) []
  have hsize := h.size_eq
  change (ht.bucketWithout key).length + _ = (ht.buckets.getD (ht.index key) []).length at hwithout
  simp only [List.length_nil] at hset
  omega

/-- `ht_remove_entry` forgets the key and nothing else. -/
theorem htRemoveEntry_spec (h : ht.Shaped) (key : K) : (htRemoveEntry ht key).Shaped ∧
    (htRemoveEntry ht key).size ≤ ht.size ∧ (htRemoveEntry ht key).hmax = ht.hmax ∧
    ∀ k, htGet (htRemoveEntry ht key) k = if ht.same key k then none else htGet ht k := by
  have hi := ht.index_lt h key
  have hwithout := length_bucketWithout ht key
  have hle := h.get_le_size key
  rw [htRemoveEntry_eq]
  refine ⟨h.withBucket hi ?_ ((h.distinct _).erase key) (by omega),Nat.sub_le _ _,rfl,fun k => ?_⟩
  · exact fun pair hpair => h.placed (erase_subset key hpair)
  · rw [h.htGet_withBucket hi,lookup_bucketWithout h]
    by_cases hsame : ht.same key k
    · rw [if_pos (h.index_congr hsame).symm]
      simp [hsame]
    · by_cases hk : ht.index k = ht.index key
      · rw [if_pos hk,if_neg hsame,if_neg hsame,htGet_eq,hk]
      · rw [if_neg hk,if_neg hsame]

/-- The first part of `ht_put` stores the value and changes no other answer. -/
theorem htPutPair_spec (h : ht.Shaped) (key : K) (value : V) : (htPutPair ht key value).Shaped ∧
    (htPutPair ht key value).size + (htGet ht key).toList.length = ht.size + 1 ∧
    (htPutPair ht key value).hmax = ht.hmax ∧
    ∀ k, htGet (htPutPair ht key value) k = if ht.same key k then some value else htGet ht k := by
  have hi := ht.index_lt h key
  have hwithout := length_bucketWithout ht key
  have hle := h.get_le_size key
  have habsent : lookup ht.same (ht.bucketWithout key) key = none := by
    rw [lookup_bucketWithout h,if_pos (h.equivalence.refl key)]
  rw [htPutPair_eq h]
  refine ⟨h.withBucket hi ?_ (distinct_concat ((h.distinct _).erase key) habsent) ?_,?_,rfl,fun k => ?_⟩
  · intro pair hpair
    rcases List.mem_append.mp hpair with hpair | hpair
    · exact h.placed (erase_subset key hpair)
    · rw [List.mem_singleton.mp hpair]
  · rw [List.length_append,List.length_singleton]
    omega
  · change ht.size - _ + 1 + _ = _
    omega
  · rw [h.htGet_withBucket hi,h.equivalence.lookup_concat habsent,lookup_bucketWithout h]
    by_cases hsame : ht.same key k
    · rw [if_pos (h.index_congr hsame).symm,if_pos hsame,if_pos hsame]
    · by_cases hk : ht.index k = ht.index key
      · rw [if_pos hk,if_neg hsame,if_neg hsame,if_neg hsame,htGet_eq,hk]
      · rw [if_neg hk,if_neg hsame]

/-- A new key is added to the pairs of the table, which stay. -/
lemma htPutPair_perm (h : ht.Shaped) {key : K} (hnew : htGet ht key = none) (value : V) :
    (htPutPair ht key value).buckets.flatten.Perm (ht.buckets.flatten ++ [(key,value)]) := by
  have hkeep : ht.bucketWithout key = ht.bucket (ht.index key) := by
    refine List.eraseP_of_forall_not fun pair hpair => ?_
    rw [htGet_eq,lookup_eq_none_iff] at hnew
    simp [hnew pair hpair]
  have hperm := flatten_set_perm ht.buckets (h.buckets_length ▸ ht.index_lt h key)
    (ht.bucket (ht.index key) ++ [(key,value)])
  rw [htPutPair_eq h,hkeep]
  change (ht.buckets.set (ht.index key) (ht.bucket (ht.index key) ++ [(key,value)])).flatten.Perm _
  refine (List.perm_append_right_iff (ht.bucket (ht.index key))).mp (hperm.trans ?_)
  rw [List.append_assoc]
  exact List.perm_append_comm.append_left _

end Update

/-- The callbacks of a table do not change. -/
def Ht.SameFunctions (ht ht' : Ht K V) : Prop :=
  ht'.hashFunction = ht.hashFunction ∧ ht'.compareFunction = ht.compareFunction

section Doubling
variable {ht : Ht K V}

lemma Ht.SameFunctions.same_eq {ht' : Ht K V} (h : ht.SameFunctions ht') : ht'.same = ht.same := by
  funext a b
  rw [Ht.same,Ht.same,h.2]

lemma htRemoveEntry_sameFunctions (ht : Ht K V) (key : K) : ht.SameFunctions (htRemoveEntry ht key) := by
  rw [htRemoveEntry_eq]
  exact ⟨rfl,rfl⟩

lemma htPutPair_sameFunctions (h : ht.Shaped) (key : K) (value : V) :
    ht.SameFunctions (htPutPair ht key value) := by
  rw [htPutPair_eq h]
  exact ⟨rfl,rfl⟩

/-- A put that stays below the load factor does not double the table. -/
lemma htPut_of_load (h : ht.Shaped) {key : K} {value : V} (hload : 4*(ht.size+1) < 3*ht.hmax) (depth : ℕ) :
    htPut (depth+1) ht key value = .ok (htPutPair ht key value) := by
  obtain ⟨-,hsize,hmax,-⟩ := htPutPair_spec h key value
  apply if_neg
  rw [hmax]
  omega

/-- Putting pairs with new, distinct keys while the table stays below its load factor. -/
lemma putPairs_spec (depth : ℕ) (ps : List (K × V)) (h : ht.Shaped) (hps : Distinct ht.same ps)
    (hnew : ∀ pair ∈ ps, htGet ht pair.1 = none) (hload : 4*(ht.size + ps.length) < 3*ht.hmax) :
    ∃ ht', ps.foldlM (fun ht pair => htPut (depth+1) ht pair.1 pair.2) ht = .ok ht' ∧ ht'.Shaped ∧
      ht.SameFunctions ht' ∧ ht'.hmax = ht.hmax ∧ ht'.size = ht.size + ps.length ∧
      ht'.buckets.flatten.Perm (ht.buckets.flatten ++ ps) ∧
      ∀ k, htGet ht' k = (lookup ht.same ps k).or (htGet ht k) := by
  induction ps generalizing ht with
  | nil => exact ⟨ht,rfl,h,⟨rfl,rfl⟩,rfl,rfl,by rw [List.append_nil],fun k => rfl⟩
  | cons pair ps ih =>
    obtain ⟨hfirst,hrest⟩ := List.pairwise_cons.mp hps
    rw [List.length_cons] at hload
    obtain ⟨hshape,hsize,hmax,hget⟩ := htPutPair_spec h pair.1 pair.2
    have hfun := htPutPair_sameFunctions h pair.1 pair.2
    rw [hnew pair (by simp),Option.toList_none,List.length_nil] at hsize
    have hnew' : ∀ q ∈ ps, htGet (htPutPair ht pair.1 pair.2) q.1 = none := by
      intro q hq
      rw [hget,hfirst q hq]
      exact hnew q (by simp [hq])
    have hpairs := htPutPair_perm h (hnew pair (by simp)) pair.2
    obtain ⟨ht',hrun,hshape',hfun',hmax',hsize',hpairs',hget'⟩ :=
      ih hshape (hfun.same_eq ▸ hrest) hnew' (by omega)
    refine ⟨ht',?_,hshape',⟨hfun'.1.trans hfun.1,hfun'.2.trans hfun.2⟩,hmax'.trans hmax,?_,?_,fun k => ?_⟩
    · rw [List.foldlM_cons,htPut_of_load h (by omega)]
      exact hrun
    · rw [List.length_cons]
      omega
    · refine hpairs'.trans ((hpairs.append_right ps).trans ?_)
      rw [List.append_assoc]
      rfl
    · rw [hget',hget,hfun.same_eq,lookup_cons]
      by_cases hsame : ht.same pair.1 k
      · have hnone : lookup ht.same ps k = none := by
          rw [lookup_eq_none_iff]
          intro q hq
          rw [← h.equivalence.congr_right hsame,h.equivalence.comm]
          exact hfirst q hq
        simp [hsame,hnone]
      · simp [hsame]

lemma foldlM_flatten {σ α : Type} (f : σ → α → Outcome σ) (ls : List (List α)) (s : σ) :
    ls.foldlM (fun s l => l.foldlM f s) s = ls.flatten.foldlM f s := by
  induction ls generalizing s with
  | nil => rfl
  | cons l ls ih =>
    rw [List.foldlM_cons,List.flatten_cons,List.foldlM_append]
    exact bind_congr ih

lemma Ht.mem_flatten (ht : Ht K V) (pair : K × V) : pair ∈ ht.buckets.flatten ↔ ∃ i, pair ∈ ht.bucket i := by
  rw [List.mem_flatten]
  constructor
  · rintro ⟨l,hl,hpair⟩
    obtain ⟨i,hi,rfl⟩ := List.getElem_of_mem hl
    exact ⟨i,by simpa [Ht.bucket,List.getD,hi] using hpair⟩
  · rintro ⟨i,hpair⟩
    by_cases hi : i < ht.buckets.length
    · exact ⟨ht.buckets[i],List.getElem_mem hi,by simpa [Ht.bucket,List.getD,hi] using hpair⟩
    · simp [Ht.bucket,List.getD,hi] at hpair

lemma Ht.Shaped.distinct_flatten (h : ht.Shaped) : Distinct ht.same ht.buckets.flatten := by
  refine List.pairwise_flatten.mpr ⟨?_,List.pairwise_iff_getElem.mpr ?_⟩
  · intro l hl
    obtain ⟨i,hi,rfl⟩ := List.getElem_of_mem hl
    have hd := h.distinct i
    simp only [Ht.bucket,List.getD,List.getElem?_eq_getElem hi,Option.getD_some] at hd
    exact hd
  · intro i j hi hj hij p hp q hq
    have hpi : ht.index p.1 = i := h.placed (by simpa [Ht.bucket,List.getD,hi] using hp)
    have hqj : ht.index q.1 = j := h.placed (by simpa [Ht.bucket,List.getD,hj] using hq)
    rw [Bool.eq_false_iff]
    intro hsame
    have heq := h.index_congr hsame
    omega

/-- The answers of a table are those of the list of all its pairs. -/
lemma Ht.Shaped.lookup_flatten (h : ht.Shaped) (key : K) :
    lookup ht.same ht.buckets.flatten key = htGet ht key := by
  apply Option.ext
  intro v
  rw [htGet_eq,h.equivalence.lookup_eq_some_iff h.distinct_flatten,
    h.equivalence.lookup_eq_some_iff (h.distinct _)]
  constructor
  · rintro ⟨pair,hpair,hsame,hv⟩
    obtain ⟨i,hi⟩ := (ht.mem_flatten pair).mp hpair
    have hidx : i = ht.index key := (h.placed hi).symm.trans (h.index_congr hsame)
    exact ⟨pair,hidx ▸ hi,hsame,hv⟩
  · rintro ⟨pair,hpair,hsame,hv⟩
    exact ⟨pair,(ht.mem_flatten pair).mpr ⟨_,hpair⟩,hsame,hv⟩

/-- A table with the given callbacks and without pairs. -/
def Ht.emptied (ht : Ht K V) (hmax : ℕ) : Ht K V :=
  { ht with size := 0, hmax := hmax, buckets := List.replicate hmax [] }

lemma Ht.bucket_emptied (ht : Ht K V) (hmax i : ℕ) : (ht.emptied hmax).bucket i = [] := by
  by_cases hi : i < hmax <;> simp [Ht.emptied,Ht.bucket,List.getD,hi]

lemma shaped_emptied (ht : Ht K V) (h : KeyEquivalence ht.same)
    (hash_congr : ∀ {a b : K}, ht.same a b = true → ht.hashFunction a = ht.hashFunction b) {hmax : ℕ}
    (hpos : 0 < hmax) : (ht.emptied hmax).Shaped := by
  refine ⟨h,hash_congr,hpos,?_,?_,?_,?_⟩
  · simp [Ht.emptied]
  · intro i pair hpair
    simp [Ht.bucket_emptied] at hpair
  · intro i
    rw [Ht.bucket_emptied]
    exact List.Pairwise.nil
  · simp [Ht.emptied]

lemma htGet_emptied (ht : Ht K V) (hmax : ℕ) (key : K) : htGet (ht.emptied hmax) key = none := by
  rw [htGet_eq,Ht.bucket_emptied]
  rfl

/-- Doubling keeps the pairs and changes no answer, and no put inside it doubles again. -/
theorem htDoubleHmax_spec (h : ht.Shaped) (hload : 4*ht.size < 6*ht.hmax) (depth : ℕ) :
    ∃ ht', htDoubleHmax (htPut (depth+1)) ht = .ok ht' ∧ ht'.Valid ∧ ht.SameFunctions ht' ∧
      ht'.hmax = 2*ht.hmax ∧ ht'.size = ht.size ∧ ht'.buckets.flatten.Perm ht.buckets.flatten ∧
      ∀ k, htGet ht' k = htGet ht k := by
  have hpos : 0 < 2*ht.hmax := by
    have := h.hmax_pos
    omega
  have hsize := h.size_eq
  obtain ⟨ht',hrun,hshape,hfun,hmax,hsize',hpairs,hget⟩ := putPairs_spec depth ht.buckets.flatten
    (shaped_emptied ht h.equivalence h.hash_congr hpos) h.distinct_flatten
    (fun pair _ => htGet_emptied ht _ pair.1)
    (by change 4*(0 + _) < 3*(2*ht.hmax); omega)
  change ht'.hmax = 2*ht.hmax at hmax
  change ht'.size = 0 + _ at hsize'
  refine ⟨ht',?_,⟨hshape,by omega⟩,hfun,hmax,by omega,?_,fun k => ?_⟩
  · rw [htDoubleHmax,foldlM_flatten]
    exact hrun
  · have hempty : (ht.emptied (2*ht.hmax)).buckets.flatten = [] := by simp [Ht.emptied]
    rwa [hempty,List.nil_append] at hpairs
  · rw [hget,htGet_emptied,Option.or_none]
    exact h.lookup_flatten k

end Doubling

/-- A table is created valid. -/
theorem htCreate_valid {hmax : ℕ} (hpos : 0 < hmax) {hashFunction : K → UInt32} {compareFunction : K → K → ℤ}
    (h : KeyEquivalence fun a b => compareFunction a b == 0)
    (hash_congr : ∀ {a b : K}, compareFunction a b = 0 → hashFunction a = hashFunction b) :
    (htCreate hmax hashFunction compareFunction : Ht K V).Valid := by
  refine ⟨shaped_emptied (htCreate hmax hashFunction compareFunction) h (fun hab => ?_) hpos,?_⟩
  · exact hash_congr (by simpa [Ht.same,htCreate] using hab)
  · change 4*0 < 3*hmax
    omega

lemma keyEquivalence_of_eq {same : K → K → Bool} (h : ∀ a b, same a b = true ↔ a = b) : KeyEquivalence same where
  refl a := (h a a).mpr rfl
  symm hab := (h _ _).mpr ((h _ _).mp hab).symm
  trans hab hbc := (h _ _).mpr (((h _ _).mp hab).trans ((h _ _).mp hbc))

lemma keyEquivalence_strings : KeyEquivalence fun a b => compareStrings a b == 0 :=
  keyEquivalence_of_eq fun a b => by rw [beq_iff_eq,compareStrings_eq_zero_iff]

lemma keyEquivalence_uints : KeyEquivalence fun a b => compareUints a b == 0 :=
  keyEquivalence_of_eq fun a b => by rw [beq_iff_eq,compareUints_eq_zero_iff]

lemma htGet_create (hmax : ℕ) (hashFunction : K → UInt32) (compareFunction : K → K → ℤ) (key : K) :
    htGet (htCreate hmax hashFunction compareFunction : Ht K V) key = none :=
  htGet_emptied (htCreate hmax hashFunction compareFunction) hmax key

namespace Ht.Valid
variable {ht : Ht K V} (h : ht.Valid)
include h

/-- After the pair is put, one doubling is enough. -/
lemma load_putPair (key : K) (value : V) :
    4*(htPutPair ht key value).size < 6*(htPutPair ht key value).hmax := by
  obtain ⟨-,hsize,hmax,-⟩ := htPutPair_spec h.toShaped key value
  have hload := h.load
  have hpos := h.hmax_pos
  have hcases : ht.hmax = 1 ∨ 2 ≤ ht.hmax := by omega
  rcases hcases with hone | htwo <;> omega

/-- `ht_put` returns, also when it doubles the table, and changes the answer for its key only. -/
theorem put (depth : ℕ) (key : K) (value : V) : ∃ ht', htPut (depth+2) ht key value = .ok ht' ∧ ht'.Valid ∧
    ht.SameFunctions ht' ∧ ∀ k, htGet ht' k = if ht.same key k then some value else htGet ht k := by
  obtain ⟨hshape,-,-,hget⟩ := htPutPair_spec h.toShaped key value
  have hfun := htPutPair_sameFunctions h.toShaped key value
  by_cases hdouble : 3*(htPutPair ht key value).hmax ≤ 4*(htPutPair ht key value).size
  · obtain ⟨ht',hrun,hvalid,hfun',-,-,-,hget'⟩ := htDoubleHmax_spec hshape (h.load_putPair key value) depth
    refine ⟨ht',?_,hvalid,⟨hfun'.1.trans hfun.1,hfun'.2.trans hfun.2⟩,fun k => (hget' k).trans (hget k)⟩
    rw [← hrun]
    exact if_pos hdouble
  · exact ⟨_,if_neg hdouble,⟨hshape,not_le.mp hdouble⟩,hfun,hget⟩

/-- `ht_remove_entry` changes the answer for its key only. -/
theorem removeEntry (key : K) : (htRemoveEntry ht key).Valid ∧ ht.SameFunctions (htRemoveEntry ht key) ∧
    ∀ k, htGet (htRemoveEntry ht key) k = if ht.same key k then none else htGet ht k := by
  obtain ⟨hshape,hsize,hmax,hget⟩ := htRemoveEntry_spec h.toShaped key
  have hload := h.load
  exact ⟨⟨hshape,by omega⟩,htRemoveEntry_sameFunctions ht key,hget⟩

end Ht.Valid

end ClientServerApp
