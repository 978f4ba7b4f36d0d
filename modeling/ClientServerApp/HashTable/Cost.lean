import ClientServerApp.HashTable.Resizing
import ClientServerApp.Library.Runs

/-! What resizing costs over a history of calls: how often `ht_put` is entered, by the callers and by the doublings.
As in `HashTable.Resizing` nothing is asked of the callbacks. -/
namespace ClientServerApp
open Traced Runs
open LastWrite (Call)

variable {K V : Type}

section Logging

/-- The loops of `ht_double_hmax` over the pairs of the old buckets. -/
def putBack (put : Ht K V → K → V → Traced Halt K (Ht K V)) : List (K × V) → Ht K V → Traced Halt K (Ht K V)
  | [],ht => pure ht
  | pair :: pairs,ht => put ht pair.1 pair.2 >>= putBack put pairs

/-- `ht_put`, logging the key at each entry. -/
def htPutLogged : ℕ → Ht K V → K → V → Traced Halt K (Ht K V)
  | 0,_,_,_ => halt .outOfFuel
  | depth+1,ht,key,value => do
    emit key
    let ht := htPutPair ht key value
    if 3*ht.hmax ≤ 4*ht.size then
      let empty := { ht with size := 0, hmax := 2*ht.hmax, buckets := List.replicate (2*ht.hmax) [] }
      putBack (htPutLogged depth) ht.buckets.flatten empty
    else pure ht

/-- A created table and the calls on it. -/
def logged (depth hmax : ℕ) (hashFunction : K → UInt32) (compareFunction : K → K → ℤ) :
    Machine (Ht K V) (Call K V) Halt K where
  init := htCreate hmax hashFunction compareFunction
  step := fun ht call => match call with
    | .put key value => htPutLogged depth ht key value
    | .remove key => pure (htRemoveEntry ht key)

/-- The calls that put. -/
def puts (calls : List (Call K V)) : ℕ := calls.countP fun call => call.value.isSome

lemma putBack_result {put : Ht K V → K → V → Traced Halt K (Ht K V)} {put' : Ht K V → K → V → Outcome (Ht K V)}
    (h : ∀ ht key value, (put ht key value).result = put' ht key value) (pairs : List (K × V)) (ht : Ht K V) :
    (putBack put pairs ht).result = pairs.foldlM (fun ht pair => put' ht pair.1 pair.2) ht := by
  induction pairs generalizing ht with
  | nil => rfl
  | cons pair pairs ih =>
    rw [putBack,bind_result,h,List.foldlM_cons]
    exact bind_congr ih

/-- The log does not change what `ht_put` does. -/
lemma htPutLogged_result (depth : ℕ) (ht : Ht K V) (key : K) (value : V) :
    (htPutLogged depth ht key value).result = htPut depth ht key value := by
  induction depth generalizing ht key value with
  | zero => rfl
  | succ depth ih =>
    simp only [htPutLogged,emit_bind,htPut]
    split_ifs
    · rw [putBack_result ih,htDoubleHmax,foldlM_flatten]
    · rfl

lemma logged_result {hashFunction : K → UInt32} {compareFunction : K → K → ℤ} (depth hmax : ℕ) (ht : Ht K V)
    (calls : List (Call K V)) : ((logged depth hmax hashFunction compareFunction).steps ht calls).result =
      calls.foldlM (Ht.call depth) ht := by
  induction calls generalizing ht with
  | nil => rfl
  | cons call calls ih =>
    have hcall : ((logged depth hmax hashFunction compareFunction).step ht call).result = ht.call depth call := by
      cases call with
      | put key value => exact htPutLogged_result depth ht key value
      | remove key => rfl
    rw [steps_cons,bind_result,hcall,List.foldlM_cons]
    exact bind_congr ih

end Logging

section Entries
variable {ht : Ht K V}

lemma htPutLogged_of_not_full {key : K} {value : V} (hfull : ¬ (htPutPair ht key value).Full) (depth : ℕ) :
    htPutLogged (depth+1) ht key value = ⟨[key],.ok (htPutPair ht key value)⟩ := by
  unfold Ht.Full at hfull
  simp only [htPutLogged,if_neg hfull,emit_bind]
  rfl

lemma htPutLogged_of_full {key : K} {value : V} (hfull : (htPutPair ht key value).Full) (depth : ℕ) :
    htPutLogged (depth+1) ht key value = emit key >>= fun _ => putBack (htPutLogged depth)
      (htPutPair ht key value).buckets.flatten ((htPutPair ht key value).refilled []) := by
  unfold Ht.Full at hfull
  simp only [htPutLogged,if_pos hfull]
  rfl

/-- Pairs that fit are put back with one entry each. -/
lemma Ht.Counted.putBack_refilled (h : ht.Counted) (depth : ℕ) {done pairs : List (K × V)}
    (hload : 4*(done ++ pairs).length < 6*ht.hmax) : putBack (htPutLogged (depth+1)) pairs (ht.refilled done) =
      ⟨pairs.map Prod.fst,.ok (ht.refilled (done ++ pairs))⟩ := by
  induction pairs generalizing done with
  | nil => rw [List.append_nil]; rfl
  | cons pair pairs ih =>
    rw [List.append_cons] at hload ⊢
    have hfull := @Ht.Counted.not_full_refilled K V ht h done (by simp at hload; omega) pair
    rw [putBack,htPutLogged_of_not_full hfull,mk_ok_bind,← refilled_concat,ih hload]
    rfl

/-- An entry for the caller and, when the table is doubled, one for each of its pairs. -/
lemma Ht.Roomy.putLogged (h : ht.Roomy) (depth : ℕ) (key : K) (value : V) :
    ∃ keys ht', htPutLogged (depth+2) ht key value = ⟨keys,.ok ht'⟩ ∧ ht'.Roomy ∧
      (keys.length = 1 ∧ ht'.hmax = ht.hmax ∧ ht'.size ≤ ht.size+1 ∨
        ∃ n, keys.length = n+1 ∧ ht'.hmax = 2*ht.hmax ∧ ht'.size ≤ n ∧ n ≤ ht.size+1 ∧ 3*ht.hmax ≤ 4*n) := by
  obtain ⟨hcounted,hsize,hmax⟩ := h.putPair key value
  have hload := h.load_putPair key value
  by_cases hfull : (htPutPair ht key value).Full
  · obtain ⟨hcounted',hsize',hmax'⟩ := hcounted.refilled (htPutPair ht key value).buckets.flatten
    have hrun := @Ht.Counted.putBack_refilled K V _ hcounted depth [] (htPutPair ht key value).buckets.flatten
      (by rw [List.nil_append,← hcounted.size_eq]; exact hload)
    rw [← hcounted.size_eq] at hsize'
    refine ⟨key :: (htPutPair ht key value).buckets.flatten.map Prod.fst,_,?_,⟨hcounted',by omega⟩,
      .inr ⟨(htPutPair ht key value).size,?_,hmax'.trans (by rw [hmax]),hsize',hsize,?_⟩⟩
    · rw [htPutLogged_of_full hfull,hrun]
      rfl
    · rw [List.length_cons,List.length_map,hcounted.size_eq]
    · unfold Ht.Full at hfull
      omega
  · exact ⟨[key],_,htPutLogged_of_not_full hfull (depth+1),⟨hcounted,not_le.mp hfull⟩,.inl ⟨rfl,hmax,hsize⟩⟩

/-- What holds after `puts` puts with all their entries: the table was doubled `k` times, never above what was put,
and the entries of a doubling are paid by the buckets that it adds. -/
structure Ht.Grown (hmax k puts entries : ℕ) (ht : Ht K V) : Prop extends ht.Roomy where
  hmax_eq : ht.hmax = 2^k * hmax
  size_le : ht.size ≤ puts
  needed : k = 0 ∨ 3*ht.hmax ≤ 8*puts
  paid : 4*entries + 3*hmax ≤ 4*puts + 3*ht.hmax + 3*k

variable {hashFunction : K → UInt32} {compareFunction : K → K → ℤ} {hmax k n entries : ℕ}

lemma Ht.Grown.step (h : ht.Grown hmax k n entries) (depth : ℕ) (call : Call K V) :
    ∃ keys ht' k', (logged (depth+2) hmax hashFunction compareFunction).step ht call = ⟨keys,.ok ht'⟩ ∧
      ht'.Grown hmax k' (n + puts [call]) (entries + keys.length) := by
  have hneeded := h.needed
  have hpaid := h.paid
  have hle := h.size_le
  have hload := h.load
  cases call with
  | put key value =>
    have hone : puts [(.put key value : Call K V)] = 1 := rfl
    obtain ⟨keys,ht',hrun,hroomy,⟨hlength,hmax',hsize⟩ | ⟨moved,hlength,hmax',hsize,hmoved,hfull⟩⟩ :=
      h.toRoomy.putLogged depth key value
    · exact ⟨keys,ht',k,hrun,⟨hroomy,hmax'.trans h.hmax_eq,by omega,by omega,by omega⟩⟩
    · refine ⟨keys,ht',k+1,hrun,⟨hroomy,?_,by omega,.inr (by omega),by omega⟩⟩
      rw [hmax',h.hmax_eq,pow_succ]
      ring
  | remove key =>
    have hnone : puts [(.remove key : Call K V)] = 0 := rfl
    obtain ⟨hcounted,hsize,hmax'⟩ := h.removeEntry key
    exact ⟨[],_,k,rfl,⟨⟨hcounted,by omega⟩,hmax'.trans h.hmax_eq,by omega,by omega,by rw [List.length_nil]; omega⟩⟩

/-- Resizing is cheap: over any calls on a created table whose `hmax` stays in the range of `u_int`, `ht_put` is
entered at most three times for each put, and once more for each doubling; the buckets that the doublings leave are
at most 8/3 of the puts. -/
theorem resizing_amortized (hpos : 1 ≤ hmax) (depth : ℕ) (calls : List (Call K V)) : ∃ ht keys k,
    (logged (depth+2) hmax hashFunction compareFunction).steps (htCreate hmax hashFunction compareFunction) calls =
      ⟨keys,.ok ht⟩ ∧ htAfter (depth+2) hmax hashFunction compareFunction calls = .ok ht ∧
    ht.hmax = 2^k * hmax ∧ (k = 0 ∨ 3*ht.hmax ≤ 8*puts calls) ∧ keys.length ≤ 3*puts calls + k := by
  have hgrown : ∃ ht keys k, (logged (depth+2) hmax hashFunction compareFunction).steps
      (htCreate hmax hashFunction compareFunction) calls = ⟨keys,.ok ht⟩ ∧
      ht.Grown hmax k (puts calls) keys.length := by
    induction calls using List.reverseRecOn with
    | nil =>
      refine ⟨htCreate hmax hashFunction compareFunction,[],0,rfl,
        ⟨⟨.emptied (htCreate hmax hashFunction compareFunction) hpos,?_⟩,?_,?_,.inl rfl,?_⟩⟩
      · change 4*0 < 3*hmax
        omega
      · exact (one_mul hmax).symm
      · exact le_refl 0
      · change 4*0 + 3*hmax ≤ 4*0 + 3*hmax + 3*0
        omega
    | append_singleton calls call ih =>
      obtain ⟨ht,keys,k,hrun,h⟩ := ih
      obtain ⟨keys',ht',k',hstep,h'⟩ := @Ht.Grown.step K V ht hashFunction compareFunction _ _ _ _ h depth call
      refine ⟨ht',keys ++ keys',k',?_,?_⟩
      · rw [steps_concat,hrun,mk_ok_bind,steps_cons,hstep,mk_ok_bind,steps_nil]
        simp
      · rw [puts,List.countP_append,List.length_append]
        exact h'
  obtain ⟨ht,keys,k,hrun,h⟩ := hgrown
  have hresult := @logged_result K V hashFunction compareFunction (depth+2) hmax
    (htCreate hmax hashFunction compareFunction) calls
  rw [hrun] at hresult
  refine ⟨ht,keys,k,hrun,hresult.symm,h.hmax_eq,h.needed,?_⟩
  have hpaid := h.paid
  have hmax' := h.hmax_eq
  obtain rfl | hneeded := h.needed
  · rw [pow_zero,one_mul] at hmax'
    omega
  · omega

/-- A table of one bucket and its first two pairs, each of which doubles it. -/
theorem resizing_amortized_two : ∃ (ht : Ht UInt32 ℕ) (keys : List UInt32) (k : ℕ),
    (logged 2 1 hashUint compareUints).steps (htCreate 1 hashUint compareUints) [.put 4 7,.put 5 8] = ⟨keys,.ok ht⟩ ∧
    keys.length ≤ 3*2 + k ∧ ht.hmax = 2^k := by
  obtain ⟨ht,keys,k,hrun,-,hmax,-,hle⟩ :=
    @resizing_amortized UInt32 ℕ hashUint compareUints 1 (by decide) 0 [.put 4 7,.put 5 8]
  exact ⟨ht,keys,k,hrun,hle,by rw [hmax,mul_one]⟩

end Entries

end ClientServerApp
