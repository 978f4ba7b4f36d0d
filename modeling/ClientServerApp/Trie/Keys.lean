import ClientServerApp.Trie.Model
import Mathlib.Data.Fintype.Card
import Mathlib.Data.Finset.Card

/-! The trie as a map from keys to values, the shape its operations maintain, and the effect
of each operation on the map. -/
namespace ClientServerApp
open Finset

/-- The number of links that are set in an array of children. -/
def childCount {n : ℕ} {α : Type} (children : Fin n → Option α) : ℕ :=
  (univ.filter fun i => (children i).isSome).card

section ChildCount
variable {n : ℕ} {α : Type} {children : Fin n → Option α} {i : Fin n}

@[simp] lemma childCount_none : childCount (fun _ : Fin n => (none : Option α)) = 0 := by
  simp [childCount]

lemma childCount_update_new (t : α) (h : children i = none) :
    childCount (Function.update children i (some t)) = childCount children + 1 := by
  have hs : (univ.filter fun j => (Function.update children i (some t) j).isSome) =
      insert i (univ.filter fun j => (children j).isSome) := by
    ext j
    by_cases hj : j = i
    · subst j; simp
    · simp [hj]
  rw [childCount,hs,card_insert_of_notMem (by simp [h])]
  rfl

lemma childCount_update_same (t : α) (h : (children i).isSome) :
    childCount (Function.update children i (some t)) = childCount children := by
  have hs : (univ.filter fun j => (Function.update children i (some t) j).isSome) =
      univ.filter fun j => (children j).isSome := by
    ext j
    by_cases hj : j = i
    · subst j; simp [h]
    · simp [Function.update_of_ne hj]
  rw [childCount,hs]
  rfl

lemma childCount_update_none (h : (children i).isSome) :
    childCount (Function.update children i none) + 1 = childCount children := by
  have hs : (univ.filter fun j => (Function.update children i none j).isSome) =
      (univ.filter fun j => (children j).isSome).erase i := by
    ext j
    by_cases hj : j = i
    · subst j; simp
    · simp [hj]
  rw [childCount,hs]
  exact card_erase_add_one (by simp [h])

lemma childCount_eq_zero : childCount children = 0 ↔ ∀ i, children i = none := by
  rw [childCount,card_eq_zero,filter_eq_empty_iff]
  simp

end ChildCount

variable {alphabet : List UInt8}

lemma getIndex_of_slot {c : UInt8} {i : Fin alphabet.length} (h : alphabet.finIdxOf? c = some i) :
    getIndexFromAlphabet alphabet c = i := by rw [getIndexFromAlphabet,h]

lemma getIndex_foreign {c : UInt8} (h : c ∉ alphabet) : getIndexFromAlphabet alphabet c = -1 := by
  rw [getIndexFromAlphabet,List.finIdxOf?_eq_none_iff.mpr h]

lemma exists_slot {c : UInt8} (h : c ∈ alphabet) : ∃ i, alphabet.finIdxOf? c = some i := by
  cases hs : alphabet.finIdxOf? c with
  | none => exact absurd h (List.finIdxOf?_eq_none_iff.mp hs)
  | some i => exact ⟨i,rfl⟩

/-- Different letters are kept at different positions. -/
lemma slot_injective {c d : UInt8} {i : Fin alphabet.length} (hc : alphabet.finIdxOf? c = some i)
    (hd : alphabet.finIdxOf? d = some i) : c = d := by
  rw [List.finIdxOf?_eq_some_iff] at hc hd
  exact hc.1.symm.trans hd.1

namespace TrieNode

@[simp] theorem child_fin {n : ℕ} (node : TrieNode n) (i : Fin n) :
    node.child (i : ℤ) = .ok (node.children i) := by simp [child]

@[simp] theorem child_neg_one {n : ℕ} (node : TrieNode n) : node.child (-1) = .error .undefined := by
  simp [child]

lemma setChild_fin {n : ℕ} (node : TrieNode n) (i : Fin n) (t : Option (TrieNode n)) :
    node.setChild i t = { node with children := Function.update node.children i t } := by
  unfold setChild
  congr 1
  funext j
  by_cases hj : j = i
  · subst j; simp
  · have hne : ((j : ℕ) : ℤ) ≠ (i : ℕ) := by simpa [Fin.ext_iff] using hj
    simp [hj,hne]

/-- Follow the links of a key. -/
def descend : TrieNode alphabet.length → List UInt8 → Option (TrieNode alphabet.length)
  | node,[] => some node
  | node,c :: key => ((alphabet.finIdxOf? c).bind node.children).bind fun t => descend t key

/-- The flag and the value that a key leads to. -/
def contentAt (node : TrieNode alphabet.length) (key : List UInt8) : Bool × Option ValueBuffer :=
  (node.descend key).elim (false,none) fun m => (m.endOfWord,m.value)

/-- The key is in the trie. -/
def Stores (node : TrieNode alphabet.length) (key : List UInt8) : Prop := (node.contentAt key).1 = true

@[simp] theorem contentAt_nil (node : TrieNode alphabet.length) :
    node.contentAt [] = (node.endOfWord,node.value) := rfl

lemma contentAt_cons {node : TrieNode alphabet.length} {c : UInt8} {i : Fin alphabet.length}
    (h : alphabet.finIdxOf? c = some i) (key : List UInt8) :
    node.contentAt (c :: key) = (node.children i).elim (false,none) fun t => t.contentAt key := by
  simp only [contentAt,descend,h,Option.bind_some]
  cases node.children i <;> rfl

lemma contentAt_cons_foreign (node : TrieNode alphabet.length) {c : UInt8} (h : c ∉ alphabet)
    (key : List UInt8) : node.contentAt (c :: key) = (false,none) := by
  simp [contentAt,descend,List.finIdxOf?_eq_none_iff.mpr h]

/-- Only the keys that start with the letter of the replaced child change. -/
lemma contentAt_update (node : TrieNode alphabet.length) {c : UInt8} {i : Fin alphabet.length}
    (h : alphabet.finIdxOf? c = some i) (t : Option (TrieNode alphabet.length)) (d : UInt8)
    (key : List UInt8) (count : ℤ) :
    contentAt { node with children := Function.update node.children i t, nChildren := count } (d :: key) =
      if d = c then t.elim (false,none) fun m => m.contentAt key else node.contentAt (d :: key) := by
  by_cases hd : d = c
  · subst d
    rw [contentAt_cons h,if_pos rfl]
    simp
  · rw [if_neg hd]
    by_cases hm : d ∈ alphabet
    · obtain ⟨j,hj⟩ := exists_slot hm
      have hij : j ≠ i := by
        rintro rfl
        exact hd (slot_injective hj h)
      rw [contentAt_cons hj,contentAt_cons hj]
      simp [Function.update_of_ne hij]
    · rw [contentAt_cons_foreign _ hm,contentAt_cons_foreign _ hm]

/-- The shape every operation keeps: exact link counters, a value exactly at the ends of words,
links at the positions of letters only, and no child without a key below it. -/
inductive WellFormed : TrieNode alphabet.length → Prop
  | intro {node : TrieNode alphabet.length}
    (children : ∀ i t, node.children i = some t → WellFormed t)
    (live : ∀ i t, node.children i = some t → ∃ key, t.Stores key)
    (letters : ∀ i t, node.children i = some t → ∃ c, alphabet.finIdxOf? c = some i)
    (count : node.nChildren = (childCount node.children : ℤ))
    (value : node.value.isSome = node.endOfWord) : WellFormed node

namespace WellFormed
variable {node : TrieNode alphabet.length}

lemma child (h : node.WellFormed) {i : Fin alphabet.length} {t : TrieNode alphabet.length}
    (ht : node.children i = some t) : t.WellFormed := by
  cases h with
  | intro children => exact children i t ht

lemma child_live (h : node.WellFormed) {i : Fin alphabet.length} {t : TrieNode alphabet.length}
    (ht : node.children i = some t) : ∃ key, t.Stores key := by
  cases h with
  | intro _ live => exact live i t ht

lemma nChildren_eq (h : node.WellFormed) : node.nChildren = (childCount node.children : ℤ) := by
  cases h
  assumption

lemma value_isSome (h : node.WellFormed) : node.value.isSome = node.endOfWord := by
  cases h
  assumption

/-- Replacing one child keeps the shape when the counter follows. -/
lemma update (h : node.WellFormed) {c : UInt8} {i : Fin alphabet.length}
    (hc : alphabet.finIdxOf? c = some i) {o : Option (TrieNode alphabet.length)} {count : ℤ}
    (ho : ∀ t, o = some t → t.WellFormed ∧ ∃ key, t.Stores key)
    (hcount : count = (childCount (Function.update node.children i o) : ℤ)) :
    WellFormed { node with children := Function.update node.children i o, nChildren := count } := by
  cases h with
  | intro children live letters _ value =>
    refine .intro ?_ ?_ ?_ hcount value
    · intro j t ht
      by_cases hj : j = i
      · subst j
        exact (ho t (by simpa using ht)).1
      · exact children j t (by simpa [Function.update_of_ne hj] using ht)
    · intro j t ht
      by_cases hj : j = i
      · subst j
        exact (ho t (by simpa using ht)).2
      · exact live j t (by simpa [Function.update_of_ne hj] using ht)
    · intro j t ht
      by_cases hj : j = i
      · subst j
        exact ⟨c,hc⟩
      · exact letters j t (by simpa [Function.update_of_ne hj] using ht)

end WellFormed

@[simp] theorem contentAt_create (key : List UInt8) :
    (trieNodeCreate : TrieNode alphabet.length).contentAt key = (false,none) := by
  cases key with
  | nil => rfl
  | cons c key =>
    by_cases hc : c ∈ alphabet
    · obtain ⟨i,hi⟩ := exists_slot hc
      rw [contentAt_cons hi]
      rfl
    · exact contentAt_cons_foreign _ hc key

lemma wellFormed_create : (trieNodeCreate : TrieNode alphabet.length).WellFormed := by
  refine .intro ?_ ?_ ?_ ?_ rfl
  · intro i t ht; cases ht
  · intro i t ht; cases ht
  · intro i t ht; cases ht
  · simp [trieNodeCreate]

/-- A well formed node keeps a value for exactly the keys it stores. -/
lemma WellFormed.contentAt_isSome {node : TrieNode alphabet.length} (h : node.WellFormed)
    (key : List UInt8) : (node.contentAt key).2.isSome = (node.contentAt key).1 := by
  induction key generalizing node with
  | nil => exact h.value_isSome
  | cons c key ih =>
    by_cases hc : c ∈ alphabet
    · obtain ⟨i,hi⟩ := exists_slot hc
      rw [contentAt_cons hi]
      cases ht : node.children i with
      | none => rfl
      | some t => exact ih (h.child ht)
    · rw [contentAt_cons_foreign _ hc]
      rfl

end TrieNode
end ClientServerApp
