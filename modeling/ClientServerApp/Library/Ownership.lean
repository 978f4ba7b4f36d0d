import Mathlib.Data.List.Nodup
import Mathlib.Logic.Function.Basic
import Mathlib.Tactic

/-! The addresses that a data structure owns in a memory, and the frame around it that belongs to others. -/
namespace Ownership

variable {A B : Type} [DecidableEq A]

/-- The memory without what is at the given addresses. -/
def without (heap : A → Option B) (own : List A) : A → Option B := fun a => if a ∈ own then none else heap a

section Without
variable {heap heap' : A → Option B} {own own' : List A} {a : A}

@[simp] lemma without_nil : without heap [] = heap := by
  funext a
  exact if_neg List.not_mem_nil

lemma without_of_mem (h : a ∈ own) : without heap own a = none := if_pos h

lemma without_of_not_mem (h : a ∉ own) : without heap own a = heap a := if_neg h

lemma without_append (heap : A → Option B) (own own' : List A) :
    without heap (own ++ own') = without (without heap own) own' := by
  funext a
  by_cases h' : a ∈ own'
  · rw [without_of_mem (List.mem_append_right _ h'),without_of_mem h']
  · rw [without_of_not_mem h']
    by_cases h : a ∈ own
    · rw [without_of_mem (List.mem_append_left _ h),without_of_mem h]
    · rw [without_of_not_mem (by simp [h,h']),without_of_not_mem h]

lemma without_perm (h : own.Perm own') (heap : A → Option B) : without heap own = without heap own' := by
  funext a
  simp only [without,h.mem_iff]

/-- What is written at an address does not matter when the address is left out. -/
lemma without_update (h : a ∈ own) (b : Option B) : without (Function.update heap a b) own = without heap own := by
  funext c
  by_cases hc : c ∈ own
  · rw [without_of_mem hc,without_of_mem hc]
  · rw [without_of_not_mem hc,without_of_not_mem hc,Function.update_of_ne]
    rintro rfl
    exact hc h

lemma update_none (heap : A → Option B) (a : A) : Function.update heap a none = without heap [a] := by
  funext c
  by_cases hc : c = a
  · subst hc
    rw [Function.update_self,without_of_mem List.mem_cons_self]
  · rw [Function.update_of_ne hc,without_of_not_mem (by simpa using hc)]

lemma without_unused (h : heap a = none) : without heap [a] = heap := by
  rw [← update_none,← h,Function.update_eq_self]

end Without

/-- Of the memory the addresses are owned, each once and in use, and the rest is the frame. -/
structure Owns (frame heap : A → Option B) (own : List A) : Prop where
  nodup : own.Nodup
  used {a : A} : a ∈ own → heap a ≠ none
  rest : without heap own = frame

namespace Owns
variable {frame heap heap' : A → Option B} {own own' others : List A} {a : A}

lemma nothing (heap : A → Option B) : Owns heap heap [] := ⟨List.nodup_nil,nofun,without_nil⟩

/-- What is in use in the frame is as the frame has it. -/
lemma read (h : Owns frame heap own) (ha : frame a ≠ none) : heap a = frame a := by
  rw [← h.rest] at ha ⊢
  by_cases hmem : a ∈ own
  · exact absurd (without_of_mem hmem) ha
  · rw [without_of_not_mem hmem]

lemma not_mem (h : Owns frame heap own) (ha : frame a ≠ none) : a ∉ own := by
  intro hmem
  rw [← h.rest] at ha
  exact ha (without_of_mem hmem)

lemma perm (h : Owns frame heap own) (hperm : own.Perm own') : Owns frame heap own' where
  nodup := hperm.nodup_iff.mp h.nodup
  used ha := h.used (hperm.mem_iff.mpr ha)
  rest := by rw [← without_perm hperm,h.rest]

/-- What is owned above a frame that has owned addresses itself. -/
theorem trans (h : Owns frame heap own) (h' : Owns heap heap' own') : Owns frame heap' (own' ++ own) where
  nodup := by
    refine List.nodup_append.mpr ⟨h'.nodup,h.nodup,?_⟩
    rintro a ha _ hmem rfl
    exact h'.not_mem (h.used hmem) ha
  used {a} ha := by
    obtain ha | ha := List.mem_append.mp ha
    · exact h'.used ha
    · rw [h'.read (h.used ha)]
      exact h.used ha
  rest := by rw [without_append,h'.rest,h.rest]

/-- When some addresses are given up for others and nothing else is touched, what is owned beside them stays. -/
lemma kept (h : Owns frame heap (own ++ others)) (hkeep : without heap' own' = without heap own) (ha : a ∈ others) :
    a ∉ own' ∧ heap' a = heap a := by
  obtain ⟨-,-,hapart⟩ := List.nodup_append.mp h.nodup
  have hkeep' := congrFun hkeep a
  rw [without_of_not_mem fun hmem => hapart a hmem a ha rfl] at hkeep'
  by_cases hmem : a ∈ own'
  · rw [without_of_mem hmem] at hkeep'
    exact absurd hkeep'.symm (h.used (List.mem_append_right _ ha))
  · rw [without_of_not_mem hmem] at hkeep'
    exact ⟨hmem,hkeep'⟩

/-- The addresses that came belong to the owner in place of those that went. -/
theorem replace (h : Owns frame heap (own ++ others)) (hnodup : own'.Nodup) (hused : ∀ a ∈ own', heap' a ≠ none)
    (hkeep : without heap' own' = without heap own) : Owns frame heap' (own' ++ others) := by
  obtain ⟨-,hothers,-⟩ := List.nodup_append.mp h.nodup
  refine ⟨List.nodup_append.mpr ⟨hnodup,hothers,?_⟩,fun {a} ha => ?_,?_⟩
  · rintro a ha _ hmem rfl
    exact (h.kept hkeep hmem).1 ha
  · obtain ha | ha := List.mem_append.mp ha
    · exact hused a ha
    · rw [(h.kept hkeep ha).2]
      exact h.used (List.mem_append_right _ ha)
  · rw [without_append,hkeep,← without_append,h.rest]

/-- Some of the addresses are given up. -/
theorem release (h : Owns frame heap (own ++ others)) : Owns frame (without heap own) others :=
  h.replace List.nodup_nil nofun without_nil

end Owns

end Ownership
