import Mathlib.Data.Finset.SDiff
import Mathlib.Data.List.Count
import Mathlib.Tactic

/-! Acquisitions and releases of resources whose names are given again after a release. -/
namespace Accounts

/-- One use of a name. -/
inductive Use (α : Type)
  | acquire (a : α)
  | release (a : α)
  deriving DecidableEq

variable {α : Type} [DecidableEq α]

/-- The names held after the uses. -/
def held : Finset α → List (Use α) → Finset α
  | s,[] => s
  | s,.acquire a :: t => held (insert a s) t
  | s,.release a :: t => held (s.erase a) t

/-- A name is acquired only when it is free and released only when it is held. -/
def Balanced : Finset α → List (Use α) → Prop
  | _,[] => True
  | s,.acquire a :: t => a ∉ s ∧ Balanced (insert a s) t
  | s,.release a :: t => a ∈ s ∧ Balanced (s.erase a) t

/-- How often a name is released before it is acquired again. -/
def releases (a : α) (t : List (Use α)) : ℕ := (t.takeWhile (· ≠ .acquire a)).count (.release a)

variable {s : Finset α} {t t' : List (Use α)} {a b : α}

lemma held_append : held s (t ++ t') = held (held s t) t' := by
  induction t generalizing s with
  | nil => rfl
  | cons use t ih => cases use <;> exact ih

lemma balanced_append : Balanced s (t ++ t') ↔ Balanced s t ∧ Balanced (held s t) t' := by
  induction t generalizing s with
  | nil => simp [Balanced,held]
  | cons use t ih => cases use <;> simp [Balanced,held,ih,and_assoc]

lemma mem_held (h : a ∈ held s t) : a ∈ s ∨ .acquire a ∈ t := by
  induction t generalizing s with
  | nil => exact .inl h
  | cons use t ih =>
    cases use with
    | acquire b =>
      rcases ih h with h | h
      · rcases Finset.mem_insert.mp h with rfl | h
        · exact .inr List.mem_cons_self
        · exact .inl h
      · exact .inr (List.mem_cons_of_mem _ h)
    | release b =>
      rcases ih h with h | h
      · exact .inl (Finset.mem_of_mem_erase h)
      · exact .inr (List.mem_cons_of_mem _ h)

section Releases

@[simp] lemma releases_acquire_self : releases a (.acquire a :: t) = 0 := by simp [releases]

@[simp] lemma releases_release_self : releases a (.release a :: t) = releases a t + 1 := by simp [releases]

lemma releases_acquire_ne (h : b ≠ a) : releases a (.acquire b :: t) = releases a t := by simp [releases,h]

lemma releases_release_ne (h : b ≠ a) : releases a (.release b :: t) = releases a t := by simp [releases,h]

/-- A free name is not released. -/
lemma Balanced.releases_free (h : Balanced s t) (ha : a ∉ s) : releases a t = 0 := by
  induction t generalizing s with
  | nil => rfl
  | cons use t ih =>
    cases use with
    | acquire b =>
      by_cases hb : b = a
      · rw [hb,releases_acquire_self]
      · rw [releases_acquire_ne hb]
        exact ih h.2 (by simpa [ha] using Ne.symm hb)
    | release b =>
      have hb : b ≠ a := fun hb => ha (hb ▸ h.1)
      rw [releases_release_ne hb]
      exact ih h.2 fun hmem => ha (Finset.mem_of_mem_erase hmem)

/-- A name that is held and is free in the end is released once before it is acquired again. -/
theorem Balanced.releases_held (h : Balanced s t) (ha : a ∈ s) (hend : a ∉ held s t) : releases a t = 1 := by
  induction t generalizing s with
  | nil => exact absurd ha hend
  | cons use t ih =>
    cases use with
    | acquire b =>
      have hb : b ≠ a := fun hb => h.1 (hb ▸ ha)
      rw [releases_acquire_ne hb]
      exact ih h.2 (Finset.mem_insert_of_mem ha) hend
    | release b =>
      by_cases hb : b = a
      · subst hb
        rw [releases_release_self,h.2.releases_free (Finset.notMem_erase b s)]
      · rw [releases_release_ne hb]
        exact ih h.2 (Finset.mem_erase.mpr ⟨Ne.symm hb,ha⟩) hend

end Releases

/-- Every acquired name that is free in the end is released once before it is acquired again. -/
theorem Balanced.released_once (h : Balanced s (t ++ .acquire a :: t'))
    (hend : a ∉ held s (t ++ .acquire a :: t')) : releases a t' = 1 := by
  rw [held_append] at hend
  exact (balanced_append.mp h).2.2.releases_held (Finset.mem_insert_self a _) hend

/-- Every released name is held. -/
theorem Balanced.held_of_release (h : Balanced s (t ++ .release a :: t')) : a ∈ held s t :=
  (balanced_append.mp h).2.1

/-- Held names are released one after the other. -/
lemma balanced_release_all {l : List α} (hnodup : l.Nodup) (hl : ∀ a ∈ l, a ∈ s) : Balanced s (l.map .release) := by
  induction l generalizing s with
  | nil => exact trivial
  | cons a l ih =>
    obtain ⟨ha,hnodup⟩ := List.nodup_cons.mp hnodup
    refine ⟨hl a List.mem_cons_self,ih hnodup fun b hb => Finset.mem_erase.mpr ⟨?_,hl b (List.mem_cons_of_mem _ hb)⟩⟩
    rintro rfl
    exact ha hb

lemma held_release_all (s : Finset α) (l : List α) : held s (l.map .release) = s \ l.toFinset := by
  induction l generalizing s with
  | nil => simp [held]
  | cons a l ih =>
    rw [List.map_cons,held,ih,List.toFinset_cons,Finset.sdiff_insert,Finset.erase_sdiff_comm]

end Accounts
