import ClientServerApp.LinkedList.Refinement
import ClientServerApp.Library.Ownership
import Mathlib.Data.List.Forall2

/-! What the calls on a list leave of the memory around it, and what freeing it gives back. -/
namespace ClientServerApp.LinkedList
open Chain Ownership

variable {α : Type} {heap : Memory α} {list : Ll} {nodes : List (Addr × α)}

lemma freeLlNode_eq {a : Addr} {node : LlNode α} (h : heap a = some node) :
    freeLlNode heap (some a) = .ok (without heap [a]) := by
  rw [freeLlNode,defined_some]
  change (deref heap (some a) >>= _) = _
  rw [deref_some node h,← update_none]
  rfl

/-- A chain does not notice that other addresses are given up. -/
lemma seg_without {p q : Option Addr} {own : List Addr} (h : Seg heap p nodes q)
    (hapart : ∀ node ∈ nodes, node.1 ∉ own) :
    Seg (without heap own) p nodes q :=
  h.congr fun node hnode => without_of_not_mem (hapart node hnode)

/-- The loop of `ll_free` reads each link before it frees the node. -/
lemma freeNodes_eq {p : Option Addr} {rounds : ℕ} (h : Seg heap p nodes none) (hnodup : (nodes.map Prod.fst).Nodup)
    (hrounds : nodes.length ≤ rounds) : freeNodes rounds heap p = .ok (without heap (nodes.map Prod.fst)) := by
  induction nodes generalizing heap p rounds with
  | nil =>
    rw [seg_nil.mp h,freeNodes,List.map_nil,without_nil]
  | cons node nodes ih =>
    obtain ⟨a,x⟩ := node
    obtain ⟨rfl,next,ha,hrest⟩ := h
    obtain ⟨hfirst,hnodup⟩ := List.nodup_cons.mp hnodup
    have hrest' : Seg (without heap [a]) next nodes none := by
      refine seg_without hrest fun node hnode hmem => hfirst ?_
      rw [← List.mem_singleton.mp hmem]
      exact List.mem_map.mpr ⟨node,hnode,rfl⟩
    cases rounds with
    | zero => cases hrounds
    | succ rounds =>
      rw [freeNodes,deref_some _ ha]
      change (freeLlNode heap (some a) >>= fun heap => freeNodes rounds heap next) = _
      rw [freeLlNode_eq ha]
      change freeNodes rounds (without heap [a]) next = _
      rw [ih hrest' hnodup (Nat.le_of_succ_le_succ hrounds),← without_append]
      rfl

namespace Ll.Represents

lemma used (h : Represents heap list nodes) {a : Addr} (ha : a ∈ nodes.map Prod.fst) : heap a ≠ none := by
  obtain ⟨node,hnode,rfl⟩ := List.mem_map.mp ha
  obtain ⟨next,hread⟩ := h.chain.read hnode
  rw [hread]
  exact Option.some_ne_none _

lemma congr {heap' : Memory α} (h : Represents heap list nodes)
    (hsame : ∀ node ∈ nodes, heap' node.1 = heap node.1) :
    Represents heap' list nodes :=
  ⟨h.chain.congr hsame,h.nodup,h.size_eq,h.tail_eq⟩

/-- A node is put behind all others. -/
theorem append (h : Represents heap list nodes) {newNode : Addr} (hnew : heap newNode = none) (d : α) :
    ∃ heap' list', llAddNthNode heap list list.size (some d) newNode = .ok (heap',list') ∧
      Represents heap' list' (nodes ++ [(newNode,d)]) ∧
      without heap' ((nodes ++ [(newNode,d)]).map Prod.fst) = without heap (nodes.map Prod.fst) := by
  have hsize := h.size_eq
  have hkeep : without heap ((nodes ++ [(newNode,d)]).map Prod.fst) = without heap (nodes.map Prod.fst) := by
    rw [without_perm (List.perm_append_comm.map _),List.map_append,without_append]
    exact congrArg (without · _) (without_unused hnew)
  obtain rfl | ⟨l,⟨a,x⟩,rfl⟩ := List.eq_nil_or_concat' nodes
  · obtain ⟨list',hadd,hrep⟩ := h.add_first (d := d) hnew (n := list.size) (by rw [hsize]; rfl)
    refine ⟨_,list',hadd,hrep,?_⟩
    rw [without_update (by simp),hkeep]
  · obtain ⟨next,list',hadd,hrep⟩ := h.add_after (d := d) hnew (n := list.size)
      (by rw [Nat.min_self,hsize,List.length_append,List.length_singleton])
    rw [List.append_assoc]
    refine ⟨_,list',hadd,hrep,?_⟩
    rw [without_update (by simp),without_update (by simp),← hkeep,List.append_assoc]

/-- The node behind some others is removed and freed. -/
theorem removeFree {l₁ l₂ : List (Addr × α)} {b : Addr} {y : α} (h : Represents heap list (l₁ ++ (b,y) :: l₂)) :
    ∃ heap₁ list' heap', llRemoveNthNode heap list l₁.length = .ok (heap₁,list',some b) ∧
      freeLlNode heap₁ (some b) = .ok heap' ∧ Represents heap' list' (l₁ ++ l₂) ∧
      without heap' ((l₁ ++ l₂).map Prod.fst) = without heap ((l₁ ++ (b,y) :: l₂).map Prod.fst) := by
  have hsize := h.size_eq
  rw [List.length_append,List.length_cons] at hsize
  have hperm : ([b] ++ (l₁ ++ l₂).map Prod.fst).Perm ((l₁ ++ (b,y) :: l₂).map Prod.fst) := by
    rw [List.map_append,List.map_append,List.map_cons]
    change (b :: (l₁.map Prod.fst ++ l₂.map Prod.fst)).Perm _
    exact List.perm_middle.symm
  have hapart : ∀ node ∈ l₁ ++ l₂, node.1 ∉ [b] := by
    intro node hnode hmem
    rw [List.mem_singleton] at hmem
    obtain hbefore | hafter := List.mem_append.mp hnode
    · exact (ne_of_nodup h.nodup).1 node hbefore hmem
    · exact (ne_of_nodup h.nodup).2 node hafter hmem
  have hfree {heap₁ : Memory α} {list' : Ll} (hrep : Represents heap₁ list' (l₁ ++ l₂)) :
      Represents (without heap₁ [b]) list' (l₁ ++ l₂) :=
    hrep.congr fun node hnode => without_of_not_mem (hapart node hnode)
  obtain rfl | ⟨l,⟨a,x⟩,rfl⟩ := List.eq_nil_or_concat' l₁
  · obtain ⟨next,hread,-⟩ := h.chain.next
    obtain ⟨list',hremove,hrep⟩ := h.remove_first (n := 0) (Nat.zero_min _)
    refine ⟨heap,list',_,hremove,freeLlNode_eq hread,hfree hrep,?_⟩
    rw [← without_append,without_perm hperm]
  · rw [List.length_append,List.length_singleton] at hsize
    rw [List.append_assoc] at h
    obtain ⟨next,heap₁,list',hread,rfl,hremove,hrep⟩ := h.remove_after (n := l.length+1) (by omega)
    have hne : b ≠ a := (ne_of_nodup h.nodup).2 (b,y) List.mem_cons_self
    rw [List.length_append,List.length_singleton]
    refine ⟨_,list',_,hremove,freeLlNode_eq (by rw [Function.update_of_ne hne,hread]),hfree ?_,?_⟩
    · rwa [List.append_assoc]
    · rw [← without_append,without_perm hperm,without_update (by simp)]

/-- Freeing a list gives back its nodes, each once. -/
theorem free (h : Represents heap list nodes) : llFree heap list = .ok (without heap (nodes.map Prod.fst)) :=
  freeNodes_eq h.chain h.nodup h.size_eq.ge

end Ll.Represents

/-- Chains do not notice what happens at other addresses. -/
lemma forall₂_congr {heap' : Memory α} {lists : List Ll} {chains : List (List (Addr × α))}
    (h : List.Forall₂ (Ll.Represents heap) lists chains)
    (hsame : ∀ node ∈ chains.flatten, heap' node.1 = heap node.1) :
    List.Forall₂ (Ll.Represents heap') lists chains := by
  induction h with
  | nil => exact .nil
  | cons hfirst _ ih =>
    rw [List.flatten_cons] at hsame
    exact .cons (hfirst.congr fun node hnode => hsame node (List.mem_append_left _ hnode))
      (ih fun node hnode => hsame node (List.mem_append_right _ hnode))

/-- Freeing several lists that share no node. -/
theorem freeLists_eq {lists : List Ll} {chains : List (List (Addr × α))}
    (h : List.Forall₂ (Ll.Represents heap) lists chains) (hnodup : (chains.flatten.map Prod.fst).Nodup) :
    lists.foldlM llFree heap = .ok (without heap (chains.flatten.map Prod.fst)) := by
  induction lists generalizing heap chains with
  | nil =>
    rw [List.forall₂_nil_left_iff.mp h,List.flatten_nil,List.map_nil,without_nil]
    rfl
  | cons list lists ih =>
    obtain ⟨nodes,chains,hfirst,hrest,rfl⟩ := List.forall₂_cons_left_iff.mp h
    rw [List.flatten_cons,List.map_append] at hnodup
    obtain ⟨-,hnodup',hapart⟩ := List.nodup_append.mp hnodup
    have hrest' : List.Forall₂ (Ll.Represents (without heap (nodes.map Prod.fst))) lists chains :=
      forall₂_congr hrest fun node hnode => without_of_not_mem fun hmem =>
        hapart _ hmem _ (List.mem_map_of_mem hnode) rfl
    rw [List.foldlM_cons,hfirst.free]
    change lists.foldlM llFree (without heap (nodes.map Prod.fst)) = _
    rw [ih hrest' hnodup',← without_append,List.flatten_cons,List.map_append]

end ClientServerApp.LinkedList
