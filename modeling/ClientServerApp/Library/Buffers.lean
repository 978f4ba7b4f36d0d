import Mathlib.Data.List.Count
import Mathlib.Data.List.Nodup
import Mathlib.Logic.Function.Basic

/-! Buffers that are numbered in the order of their allocation and owned by slots until they are freed. -/
namespace Buffers
variable {K : Type}

/-- No two slots own the same buffer, and every buffer allocated so far is either owned by a slot or has been
freed once. -/
structure Accounted (owned : K → Option ℕ) (allocated : ℕ) (freed : List ℕ) : Prop where
  unique {k l : K} {a : ℕ} : owned k = some a → owned l = some a → k = l
  once (a : ℕ) : (∃ k, owned k = some a) ∧ a < allocated ∧ freed.count a = 0 ∨
    (∀ k, owned k ≠ some a) ∧ freed.count a = if a < allocated then 1 else 0

namespace Accounted
variable {owned : K → Option ℕ} {allocated : ℕ} {freed : List ℕ}

lemma empty : Accounted (fun _ : K => none) 0 [] where
  unique h := by cases h
  once a := .inr ⟨nofun,by simp⟩

variable [DecidableEq K] {k : K}

/-- What the slots own after one of them has changed. -/
lemma update_eq_some {v : Option ℕ} {l : K} {a : ℕ} (h : Function.update owned k v l = some a) :
    l = k ∧ v = some a ∨ l ≠ k ∧ owned l = some a := by
  by_cases hlk : l = k
  · rw [hlk,Function.update_self] at h
    exact .inl ⟨hlk,h⟩
  · rw [Function.update_of_ne hlk] at h
    exact .inr ⟨hlk,h⟩

/-- A slot without a buffer takes the next one. -/
theorem allocate (h : Accounted owned allocated freed) (hk : owned k = none) :
    Accounted (Function.update owned k (some allocated)) (allocated+1) freed := by
  have hnew : (∀ l, owned l ≠ some allocated) ∧ freed.count allocated = 0 := by
    rcases h.once allocated with ⟨-,hlt,-⟩ | ⟨hfree,hcount⟩
    · omega
    · exact ⟨hfree,by simpa using hcount⟩
  constructor
  · intro l m a hl hm
    obtain ⟨hlk,ha⟩ | ⟨-,hl'⟩ := update_eq_some hl
    · obtain ⟨hmk,-⟩ | ⟨-,hm'⟩ := update_eq_some hm
      · exact hlk.trans hmk.symm
      · exact absurd (hm'.trans ha.symm) (hnew.1 m)
    · obtain ⟨-,ha⟩ | ⟨-,hm'⟩ := update_eq_some hm
      · exact absurd (hl'.trans ha.symm) (hnew.1 l)
      · exact h.unique hl' hm'
  · intro a
    by_cases ha : a = allocated
    · rw [ha]
      exact .inl ⟨⟨k,Function.update_self _ _ _⟩,by omega,hnew.2⟩
    · rcases h.once a with ⟨⟨l,hl⟩,hlt,hcount⟩ | ⟨hfree,hcount⟩
      · have hlk : l ≠ k := by
          rintro rfl
          rw [hk] at hl
          cases hl
        exact .inl ⟨⟨l,by rw [Function.update_of_ne hlk,hl]⟩,by omega,hcount⟩
      · refine .inr ⟨fun l hl => ?_,?_⟩
        · obtain ⟨-,hl⟩ | ⟨-,hl⟩ := update_eq_some hl
          · exact ha (Option.some.inj hl).symm
          · exact hfree l hl
        · rw [hcount]
          congr 1
          exact propext ⟨fun _ => by omega,fun _ => by omega⟩

/-- A slot gives up what it owns. -/
theorem free (h : Accounted owned allocated freed) (k : K) :
    Accounted (Function.update owned k none) allocated ((owned k).toList ++ freed) := by
  have hother : ∀ {l a}, Function.update owned k none l = some a → l ≠ k ∧ owned l = some a := by
    intro l a hl
    obtain ⟨-,hl⟩ | hl := update_eq_some hl
    · cases hl
    · exact hl
  cases hk : owned k with
  | none =>
    rw [← hk,Function.update_eq_self,hk]
    exact h
  | some b =>
    constructor
    · intro l m a hl hm
      exact h.unique (hother hl).2 (hother hm).2
    · intro a
      rcases h.once a with ⟨⟨l,hl⟩,hlt,hcount⟩ | ⟨hfree,hcount⟩
      · by_cases hlk : l = k
        · obtain rfl : b = a := Option.some.inj (hk.symm.trans (hlk ▸ hl))
          refine .inr ⟨fun m hm => (hother hm).1 (h.unique (hother hm).2 hk),?_⟩
          simp [hcount,hlt]
        · have hab : b ≠ a := by
            rintro rfl
            exact hlk (h.unique hl hk)
          refine .inl ⟨⟨l,by rw [Function.update_of_ne hlk,hl]⟩,hlt,?_⟩
          simpa [List.count_cons_of_ne hab] using hcount
      · have hab : b ≠ a := by
          rintro rfl
          exact hfree k hk
        refine .inr ⟨fun m hm => hfree m (hother hm).2,?_⟩
        simpa [List.count_cons_of_ne hab] using hcount

end Accounted

/-- No two slots own the same buffer, and none that has been freed; no buffer has been freed twice. Buffers may be
lost: neither owned nor freed. -/
structure Distinct (owned : K → Option ℕ) (allocated : ℕ) (freed : List ℕ) : Prop where
  unique {k l : K} {a : ℕ} : owned k = some a → owned l = some a → k = l
  live {k : K} {a : ℕ} : owned k = some a → a < allocated ∧ a ∉ freed
  nodup : freed.Nodup
  old {a : ℕ} : a ∈ freed → a < allocated

namespace Distinct
variable {owned : K → Option ℕ} {allocated : ℕ} {freed : List ℕ}

lemma empty : Distinct (fun _ : K => none) 0 [] where
  unique h := by cases h
  live h := by cases h
  nodup := List.nodup_nil
  old h := by cases h

variable [DecidableEq K]

/-- A slot takes the next buffer and loses what it had. -/
theorem allocate (h : Distinct owned allocated freed) (k : K) :
    Distinct (Function.update owned k (some allocated)) (allocated+1) freed := by
  have hcases {l : K} {a : ℕ} (hl : Function.update owned k (some allocated) l = some a) :
      l = k ∧ a = allocated ∨ l ≠ k ∧ owned l = some a ∧ a < allocated := by
    obtain ⟨hlk,ha⟩ | ⟨hlk,hl⟩ := Accounted.update_eq_some hl
    · exact .inl ⟨hlk,(Option.some.inj ha).symm⟩
    · exact .inr ⟨hlk,hl,(h.live hl).1⟩
  refine ⟨fun {l m a} hl hm => ?_,fun {l a} hl => ?_,h.nodup,fun ha => Nat.lt_succ_of_lt (h.old ha)⟩
  · obtain ⟨hlk,ha⟩ | ⟨-,hl,ha⟩ := hcases hl
    · obtain ⟨hmk,-⟩ | ⟨-,-,ha'⟩ := hcases hm
      · exact hlk.trans hmk.symm
      · omega
    · obtain ⟨-,ha'⟩ | ⟨-,hm,-⟩ := hcases hm
      · omega
      · exact h.unique hl hm
  · obtain ⟨-,rfl⟩ | ⟨-,hl,ha⟩ := hcases hl
    · exact ⟨Nat.lt_succ_self a,fun hmem => absurd (h.old hmem) (Nat.lt_irrefl a)⟩
    · exact ⟨Nat.lt_succ_of_lt ha,(h.live hl).2⟩

/-- A slot gives up what it owns. -/
theorem free (h : Distinct owned allocated freed) (k : K) :
    Distinct (Function.update owned k none) allocated ((owned k).toList ++ freed) := by
  have hother {l : K} {a : ℕ} (hl : Function.update owned k none l = some a) : l ≠ k ∧ owned l = some a := by
    obtain ⟨-,hl⟩ | hl := Accounted.update_eq_some hl
    · cases hl
    · exact hl
  have hmem {a : ℕ} : a ∈ (owned k).toList ↔ owned k = some a := Option.mem_toList
  refine ⟨fun hl hm => h.unique (hother hl).2 (hother hm).2,fun {l a} hl => ?_,?_,fun {a} ha => ?_⟩
  · obtain ⟨hlk,hl⟩ := hother hl
    refine ⟨(h.live hl).1,fun ha => ?_⟩
    obtain ha | ha := List.mem_append.mp ha
    · exact hlk (h.unique hl (hmem.mp ha))
    · exact (h.live hl).2 ha
  · refine List.nodup_append.mpr ⟨?_,h.nodup,?_⟩
    · cases owned k with
      | none => exact List.nodup_nil
      | some a => exact List.nodup_singleton a
    · rintro a ha _ hfreed rfl
      exact (h.live (hmem.mp ha)).2 hfreed
  · obtain ha | ha := List.mem_append.mp ha
    · exact (h.live (hmem.mp ha)).1
    · exact h.old ha

end Distinct

end Buffers
