import Mathlib.Data.List.SplitLengths
import Mathlib.Tactic

/-! A stream cut into pieces, and a stream of frames of one length. -/
namespace Framing
variable {α : Type}

/-- The pieces of a stream, in order: none is empty and none exceeds the limit. -/
structure Cut (limit : ℕ) (stream : List α) (pieces : List (List α)) : Prop where
  flatten_eq : pieces.flatten = stream
  pos {piece : List α} : piece ∈ pieces → 0 < piece.length
  le {piece : List α} : piece ∈ pieces → piece.length ≤ limit

namespace Cut
variable {limit : ℕ} {stream frame piece : List α} {pieces : List (List α)}

/-- Nothing is cut into no pieces. -/
lemma nil_iff : Cut limit stream [] ↔ stream = [] :=
  ⟨fun h => h.flatten_eq.symm,fun h => ⟨h.symm,by simp,by simp⟩⟩

lemma eq_nil (h : Cut limit ([] : List α) pieces) : pieces = [] := by
  cases pieces with
  | nil => rfl
  | cons piece pieces =>
    have hpos := h.pos (List.mem_cons_self (a := piece) (l := pieces))
    have hnil : piece = [] := (List.append_eq_nil_iff.mp (show piece ++ pieces.flatten = [] from h.flatten_eq)).1
    simp [hnil] at hpos

/-- A first piece as long as the first frame is that frame. -/
lemma of_length_eq (h : Cut limit (frame ++ stream) (piece :: pieces)) (hlen : piece.length = frame.length) :
    piece = frame ∧ Cut limit stream pieces := by
  obtain ⟨hpiece,hrest⟩ := List.append_inj (show piece ++ pieces.flatten = frame ++ stream from h.flatten_eq) hlen
  exact ⟨hpiece,hrest,fun hp => h.pos (List.mem_cons_of_mem _ hp),fun hp => h.le (List.mem_cons_of_mem _ hp)⟩

end Cut

section Lengths
variable {limit : ℕ} {lens : List ℕ}

/-- A piece starts where those before it end. -/
lemma mem_splitLengths {stream piece : List α} (h : piece ∈ lens.splitLengths stream) :
    ∃ before len after, lens = before ++ len :: after ∧ piece = (stream.drop before.sum).take len := by
  induction lens generalizing stream with
  | nil => simp at h
  | cons l lens ih =>
    rw [List.splitLengths_cons,List.mem_cons] at h
    rcases h with rfl | h
    · exact ⟨[],l,lens,rfl,by simp⟩
    · obtain ⟨before,len,after,rfl,rfl⟩ := ih h
      exact ⟨l :: before,len,after,rfl,by simp [List.drop_drop]⟩

/-- Frames of one length are the pieces of that length. -/
lemma splitLengths_replicate {β : Type} (f : β → List α) {xs : List β} (hf : ∀ x ∈ xs, (f x).length = limit) :
    (List.replicate xs.length limit).splitLengths (xs.flatMap f) = xs.map f := by
  induction xs with
  | nil => rfl
  | cons x xs ih =>
    have hx := hf x List.mem_cons_self
    rw [List.length_cons,List.replicate_succ,List.splitLengths_cons,List.flatMap_cons,List.take_left' hx,
      List.drop_left' hx,ih fun y hy => hf y (List.mem_cons_of_mem _ hy)]
    rfl

/-- When a whole frame starts at every multiple of its length, there are no other pieces. -/
lemma eq_replicate_of_boundaries {k : ℕ} (hpos : ∀ l ∈ lens, 0 < l) (hlimit : 0 < limit) (hsum : lens.sum = limit*k)
    (h : ∀ j < k, ∃ before after, lens = before ++ limit :: after ∧ before.sum = limit*j) :
    lens = List.replicate k limit := by
  induction k generalizing lens with
  | zero =>
    cases lens with
    | nil => rfl
    | cons l lens =>
      have hl := hpos l List.mem_cons_self
      simp at hsum
      omega
  | succ k ih =>
    obtain ⟨before,rest,rfl,hbefore⟩ := h 0 (by omega)
    have hnil : before = [] := by
      cases before with
      | nil => rfl
      | cons l before =>
        have hl := hpos l (by simp)
        simp at hbefore
        omega
    subst hnil
    have hrest : rest = List.replicate k limit := by
      refine ih (fun l hl => hpos l (by simp [hl])) ?_ fun j hj => ?_
      · simp only [List.nil_append,List.sum_cons,mul_add] at hsum
        omega
      · obtain ⟨before,after,heq,hsum'⟩ := h (j+1) (by omega)
        cases before with
        | nil =>
          simp only [List.sum_nil] at hsum'
          exact absurd hsum'.symm (Nat.mul_pos hlimit (by omega)).ne'
        | cons l before =>
          obtain ⟨hl,hrest⟩ := List.cons_eq_cons.mp heq
          refine ⟨before,after,hrest,?_⟩
          rw [List.sum_cons,mul_add] at hsum'
          omega
    rw [hrest]
    rfl

/-- A run of a letter that occurs nowhere else. -/
lemma bounds_of_getElem? {before after : List α} {x : α} {m q : ℕ} (hb : x ∉ before) (ha : x ∉ after)
    (h : (before ++ List.replicate m x ++ after)[q]? = some x) : before.length ≤ q ∧ q < before.length + m := by
  constructor
  · by_contra hlt
    rw [List.append_assoc,List.getElem?_append_left (by omega)] at h
    exact hb (List.mem_of_getElem? h)
  · by_contra hge
    rw [List.getElem?_append_right (by simp; omega)] at h
    exact ha (List.mem_of_getElem? h)

end Lengths

end Framing
