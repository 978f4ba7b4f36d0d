import Mathlib.Tactic

/-! Chains of nodes in a memory, each with the address of the next one. -/
namespace Chain

/-- A node: the address of the next one, if there is one, and its data. -/
structure Node (A D : Type) where
  next : Option A
  data : D
  deriving DecidableEq, Repr

/-- The nodes at the addresses that are in use. -/
abbrev Heap (A D : Type) := A → Option (Node A D)

variable {A D : Type}

/-- From the pointer `p` the links lead through exactly the given nodes, in order, to the pointer `q`. -/
def Seg (heap : Heap A D) : Option A → List (A × D) → Option A → Prop
  | p,[],q => p = q
  | p,(a,x) :: l,q => p = some a ∧ ∃ next, heap a = some ⟨next,x⟩ ∧ Seg heap next l q

section Segments
variable {heap : Heap A D} {p q r : Option A} {a : A} {x : D} {l l' : List (A × D)}

@[simp] theorem seg_nil : Seg heap p [] q ↔ p = q := Iff.rfl

@[simp] theorem seg_cons : Seg heap p ((a,x) :: l) q ↔
    p = some a ∧ ∃ next, heap a = some ⟨next,x⟩ ∧ Seg heap next l q :=
  Iff.rfl

theorem seg_append : Seg heap p (l ++ l') q ↔ ∃ r, Seg heap p l r ∧ Seg heap r l' q := by
  induction l generalizing p with
  | nil => simp
  | cons node l ih =>
    obtain ⟨a,x⟩ := node
    simp only [List.cons_append,seg_cons,ih]
    constructor
    · rintro ⟨hp,next,ha,r,hl,hl'⟩
      exact ⟨r,⟨hp,next,ha,hl⟩,hl'⟩
    · rintro ⟨r,⟨hp,next,ha,hl⟩,hl'⟩
      exact ⟨hp,next,ha,r,hl,hl'⟩

/-- What is at other addresses does not matter. -/
theorem Seg.congr {heap' : Heap A D} (h : Seg heap p l q) (hsame : ∀ node ∈ l, heap' node.1 = heap node.1) :
    Seg heap' p l q := by
  induction l generalizing p with
  | nil => exact h
  | cons node l ih =>
    obtain ⟨a,x⟩ := node
    obtain ⟨hp,next,ha,hl⟩ := h
    refine ⟨hp,next,?_,ih hl fun node hnode => hsame node (List.mem_cons_of_mem _ hnode)⟩
    rw [← ha]
    exact hsame (a,x) List.mem_cons_self

/-- Every node of a chain is in use and has its data. -/
lemma Seg.read (h : Seg heap p l q) {node : A × D} (hnode : node ∈ l) :
    ∃ next, heap node.1 = some ⟨next,node.2⟩ := by
  induction l generalizing p with
  | nil => cases hnode
  | cons first l ih =>
    obtain ⟨a,x⟩ := first
    obtain ⟨-,next,ha,hl⟩ := h
    cases hnode with
    | head => exact ⟨next,ha⟩
    | tail _ hnode => exact ih hl hnode

/-- An address that is not in use belongs to no node. -/
lemma Seg.fresh (h : Seg heap p l q) (ha : heap a = none) : ∀ node ∈ l, node.1 ≠ a := by
  rintro node hnode rfl
  obtain ⟨next,hread⟩ := h.read hnode
  rw [ha] at hread
  cases hread

/-- A node that is not the last one points to the next. -/
lemma Seg.next (h : Seg heap p (l ++ (a,x) :: l') q) : ∃ next, heap a = some ⟨next,x⟩ ∧ Seg heap next l' q := by
  obtain ⟨r,-,-,next,ha,hl'⟩ := seg_append.mp h
  exact ⟨next,ha,hl'⟩

/-- No other node has the address of a node when the addresses are distinct. -/
lemma ne_of_nodup (h : ((l' ++ (a,x) :: l).map Prod.fst).Nodup) :
    (∀ node ∈ l', node.1 ≠ a) ∧ ∀ node ∈ l, node.1 ≠ a := by
  rw [List.map_append,List.map_cons,List.nodup_append] at h
  obtain ⟨-,hafter,hbefore⟩ := h
  constructor
  · rintro node hnode rfl
    exact hbefore _ (List.mem_map.mpr ⟨node,hnode,rfl⟩) _ List.mem_cons_self rfl
  · rintro node hnode rfl
    exact (List.nodup_cons.mp hafter).1 (List.mem_map.mpr ⟨node,hnode,rfl⟩)

end Segments

section Changes
variable [DecidableEq A] {heap : Heap A D} {p next : Option A} {a b c : A} {x y d : D} {l l₁ l₂ : List (A × D)}

/-- A write at an address that belongs to no node. -/
lemma Seg.frame (h : Seg heap p l next) (ha : ∀ node ∈ l, node.1 ≠ a) (node : Option (Node A D)) :
    Seg (Function.update heap a node) p l next :=
  h.congr fun node' hnode => Function.update_of_ne (ha node' hnode) _ _

/-- A new node before all others. -/
theorem Seg.insert_head (h : Seg heap p l none) (hc : ∀ node ∈ l, node.1 ≠ c) :
    Seg (Function.update heap c (some ⟨p,d⟩)) (some c) ((c,d) :: l) none :=
  ⟨rfl,p,Function.update_self _ _ _,h.frame hc _⟩

/-- The link of a node replaced by one to another chain that avoids the node. -/
theorem Seg.relink (h : Seg heap p (l₁ ++ (a,x) :: l) none) (hnodup : ((l₁ ++ (a,x) :: l).map Prod.fst).Nodup)
    (hnext : Seg heap next l₂ none) (ha : ∀ node ∈ l₂, node.1 ≠ a) :
    Seg (Function.update heap a (some ⟨next,x⟩)) p (l₁ ++ (a,x) :: l₂) none := by
  obtain ⟨r,hfirst,hr,-⟩ := seg_append.mp h
  exact seg_append.mpr ⟨r,hfirst.frame (ne_of_nodup hnodup).1 _,hr,next,Function.update_self _ _ _,hnext.frame ha _⟩

/-- A new node behind a node of the chain. -/
theorem Seg.insert_after (h : Seg heap p (l₁ ++ (a,x) :: l) none) (hnodup : ((l₁ ++ (a,x) :: l).map Prod.fst).Nodup)
    (hc : ∀ node ∈ l₁ ++ (a,x) :: l, node.1 ≠ c) :
    ∃ next, heap a = some ⟨next,x⟩ ∧
      Seg (Function.update (Function.update heap a (some ⟨some c,x⟩)) c (some ⟨next,d⟩)) p
        (l₁ ++ (a,x) :: (c,d) :: l) none := by
  obtain ⟨next,ha,hrest⟩ := h.next
  have hac : a ≠ c := hc (a,x) (by simp)
  have hafter : ∀ node ∈ (c,d) :: l, node.1 ≠ a := by
    intro node hnode
    cases hnode with
    | head => exact hac.symm
    | tail _ hnode => exact (ne_of_nodup hnodup).2 node hnode
  refine ⟨next,ha,?_⟩
  rw [Function.update_comm hac]
  apply (h.frame hc (some ⟨next,d⟩)).relink hnodup _ hafter
  exact hrest.insert_head fun node hnode => hc node (by simp [hnode])

/-- The node behind a node of the chain is taken out. -/
theorem Seg.remove_after (h : Seg heap p (l₁ ++ (a,x) :: (b,y) :: l) none)
    (hnodup : ((l₁ ++ (a,x) :: (b,y) :: l).map Prod.fst).Nodup) :
    ∃ next, heap a = some ⟨some b,x⟩ ∧ heap b = some ⟨next,y⟩ ∧
      Seg (Function.update heap a (some ⟨next,x⟩)) p (l₁ ++ (a,x) :: l) none := by
  obtain ⟨_,ha,rfl,next,hb,hrest⟩ := h.next
  exact ⟨next,ha,hb,h.relink hnodup hrest fun node hnode =>
    (ne_of_nodup hnodup).2 node (List.mem_cons_of_mem _ hnode)⟩

end Changes

end Chain
