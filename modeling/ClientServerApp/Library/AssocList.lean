import Mathlib.Tactic

/-! Lists of pairs as finite maps whose keys are compared by a given test. A lookup answers with
the value of the first pair whose key passes the test. -/
namespace AssocList

variable {K V : Type} (same : K → K → Bool)

/-- The test is an equivalence. -/
structure KeyEquivalence : Prop where
  refl (a : K) : same a a = true
  symm {a b : K} : same a b = true → same b a = true
  trans {a b c : K} : same a b = true → same b c = true → same a c = true

def lookup (ps : List (K × V)) (k : K) : Option V := (ps.find? fun p => same p.1 k).map Prod.snd

/-- Drop the first pair with the key. -/
def erase (ps : List (K × V)) (k : K) : List (K × V) := ps.eraseP fun p => same p.1 k

/-- No key occurs twice. -/
def Distinct (ps : List (K × V)) : Prop := ps.Pairwise fun p q => same p.1 q.1 = false

variable {same} {ps qs : List (K × V)} {k k' : K} {v : V}

@[simp] theorem lookup_nil : lookup same ([] : List (K × V)) k = none := rfl

@[simp] theorem lookup_cons (p : K × V) :
    lookup same (p :: ps) k = if same p.1 k then some p.2 else lookup same ps k := by
  by_cases h : same p.1 k <;> simp [lookup,h]

@[simp] theorem erase_nil : erase same ([] : List (K × V)) k = [] := rfl

@[simp] theorem erase_cons (p : K × V) :
    erase same (p :: ps) k = if same p.1 k then ps else p :: erase same ps k := by
  by_cases h : same p.1 k <;> simp [erase,h]

theorem lookup_eq_none_iff : lookup same ps k = none ↔ ∀ p ∈ ps, same p.1 k = false := by
  simp [lookup]

theorem lookup_isSome_iff : (lookup same ps k).isSome ↔ ∃ p ∈ ps, same p.1 k := by
  rw [← not_iff_not]
  simp [lookup_eq_none_iff]

theorem lookup_append : lookup same (ps ++ qs) k = (lookup same ps k).or (lookup same qs k) := by
  induction ps with
  | nil => rfl
  | cons p ps ih => by_cases h : same p.1 k <;> simp [h,ih]

namespace KeyEquivalence
variable (eqv : KeyEquivalence same)
include eqv

theorem comm (a b : K) : same a b = same b a := by
  rw [Bool.eq_iff_iff]
  exact ⟨eqv.symm,eqv.symm⟩

theorem congr_left {a b : K} (h : same a b = true) (c : K) : same a c = same b c := by
  rw [Bool.eq_iff_iff]
  exact ⟨eqv.trans (eqv.symm h),eqv.trans h⟩

theorem congr_right {a b : K} (h : same a b = true) (c : K) : same c a = same c b := by
  rw [Bool.eq_iff_iff]
  exact ⟨fun hc => eqv.trans hc h,fun hc => eqv.trans hc (eqv.symm h)⟩

/-- With distinct keys a lookup finds every pair. -/
theorem lookup_eq_some_iff (hps : Distinct same ps) :
    lookup same ps k = some v ↔ ∃ p ∈ ps, same p.1 k ∧ p.2 = v := by
  induction ps with
  | nil => simp
  | cons p ps ih =>
    obtain ⟨hp,hps⟩ := List.pairwise_cons.mp hps
    rw [lookup_cons]
    by_cases h : same p.1 k
    · have hrest : ∀ q ∈ ps, same q.1 k = false := by
        intro q hq
        rw [← eqv.congr_right h,eqv.comm]
        exact hp q hq
      simp only [h,if_true,Option.some.injEq,List.mem_cons,exists_eq_or_imp]
      constructor
      · exact fun hv => .inl ⟨trivial,hv⟩
      · rintro (⟨-,hv⟩ | ⟨q,hq,hsame,-⟩)
        · exact hv
        · exact absurd hsame (by simp [hrest q hq])
    · rw [if_neg h,ih hps]
      simp [h]

/-- Appending a pair with a new key changes the answer for this key only. -/
theorem lookup_concat (hk : lookup same ps k = none) :
    lookup same (ps ++ [(k,v)]) k' = if same k k' then some v else lookup same ps k' := by
  rw [lookup_append,lookup_cons,lookup_nil]
  by_cases h : same k k'
  · have hnone : lookup same ps k' = none := by
      rw [lookup_eq_none_iff] at hk ⊢
      intro p hp
      rw [← eqv.congr_right h]
      exact hk p hp
    simp [h,hnone]
  · simp [h]

/-- Dropping a key changes the answer for this key only. -/
theorem lookup_erase (hps : Distinct same ps) :
    lookup same (erase same ps k) k' = if same k k' then none else lookup same ps k' := by
  induction ps with
  | nil => simp
  | cons p ps ih =>
    obtain ⟨hp,hps⟩ := List.pairwise_cons.mp hps
    by_cases h : same p.1 k
    · rw [erase_cons,if_pos h,lookup_cons,← eqv.congr_left h]
      by_cases h' : same p.1 k'
      · rw [if_pos h',lookup_eq_none_iff]
        intro q hq
        rw [← eqv.congr_right h',eqv.comm]
        exact hp q hq
      · rw [if_neg h',if_neg h']
    · rw [erase_cons,if_neg h,lookup_cons,lookup_cons,ih hps]
      by_cases h' : same k k'
      · have hne : ¬ same p.1 k' = true := by rwa [← eqv.congr_right h']
        rw [if_pos h',if_pos h',if_neg hne]
      · rw [if_neg h',if_neg h']

end KeyEquivalence

theorem distinct_concat (hps : Distinct same ps) (hk : lookup same ps k = none) :
    Distinct same (ps ++ [(k,v)]) := by
  rw [lookup_eq_none_iff] at hk
  refine List.pairwise_append.mpr ⟨hps,List.pairwise_singleton _ _,fun p hp q hq => ?_⟩
  rw [List.mem_singleton.mp hq]
  exact hk p hp

theorem erase_subset (k : K) : erase same ps k ⊆ ps := List.eraseP_subset

theorem Distinct.erase (hps : Distinct same ps) (k : K) : Distinct same (erase same ps k) :=
  hps.sublist List.eraseP_sublist

/-- The lengths show whether the key was there. -/
theorem length_erase (k : K) :
    (erase same ps k).length + (lookup same ps k).toList.length = ps.length := by
  induction ps with
  | nil => rfl
  | cons p ps ih =>
    rw [erase_cons,lookup_cons]
    by_cases h : same p.1 k
    · simp [h]
    · simp only [if_neg h,List.length_cons]
      omega

/-- A list without a key twice is as long as the list of the keys that have a value. -/
theorem Distinct.length_eq (h : Distinct same ps) (hsame : ∀ a b, same a b = true ↔ a = b) {keys : List K}
    (hnodup : keys.Nodup) (hkeys : ∀ k, k ∈ keys ↔ (lookup same ps k).isSome) : ps.length = keys.length := by
  have hfirst : (ps.map Prod.fst).Nodup := by
    refine List.pairwise_map.mpr (h.imp fun {p q} hpq heq => ?_)
    rw [(hsame _ _).mpr heq] at hpq
    cases hpq
  have hperm : (ps.map Prod.fst).Perm keys := by
    refine (List.perm_ext_iff_of_nodup hfirst hnodup).mpr fun k => ?_
    rw [hkeys,lookup_isSome_iff,List.mem_map]
    simp only [hsame]
  rw [← hperm.length_eq,List.length_map]

/-- Removing at the position of the first pair with the key is dropping the key. -/
theorem eraseIdx_eq_erase {pos : ℕ} (h : ps.findIdx? (fun p => same p.1 k) = some pos) :
    ps.eraseIdx pos = erase same ps k := by
  rw [AssocList.erase,List.eraseP_eq_eraseIdx,h]

end AssocList
