import ClientServerApp.LinkedList.Model

/-! The linked list refines the sequence of its data: each call does to the chain of the nodes what it means
for the sequence, and no call reads a tail that is out of date. -/
namespace ClientServerApp.LinkedList
open Chain

variable {α : Type}

/-- The nodes of the list, in order: from the head they form a chain that ends in `NULL`, no node occurs twice,
and the last one is the tail. -/
structure Ll.Represents (heap : Memory α) (list : Ll) (nodes : List (Addr × α)) : Prop where
  chain : Seg heap list.head nodes none
  nodup : (nodes.map Prod.fst).Nodup
  size_eq : list.size = nodes.length
  tail_eq {node : Addr × α} : nodes.getLast? = some node → list.tail = some node.1

section Pointers
variable {heap : Memory α} {p q : Option Addr} {a : Addr} {x : α} {next : Option Addr}
  {nodes l l₁ l₂ : List (Addr × α)}

@[simp] lemma deref_some (node : LlNode α) (h : heap a = some node) : deref heap (some a) = .ok node := by
  rw [deref,Option.bind_some,h,defined_some]

lemma setNext_some (h : heap a = some ⟨next,x⟩) :
    setNext heap (some a) q = .ok (Function.update heap a (some ⟨q,x⟩)) := by
  rw [setNext,defined_some]
  change (deref heap (some a) >>= _) = _
  rw [deref_some _ h]
  rfl

/-- Walking over some nodes of a chain leads to the next one. -/
lemma walk_chain (h : Seg heap p (l₁ ++ (a,x) :: l₂) q) : walk heap p l₁.length = .ok (some a) := by
  induction l₁ generalizing p with
  | nil =>
    rw [h.1]
    rfl
  | cons node l₁ ih =>
    obtain ⟨b,y⟩ := node
    obtain ⟨rfl,next,hread,hrest⟩ := h
    rw [List.length_cons,walk,deref_some _ hread]
    exact ih hrest

end Pointers

/-- There is no node at the size or past it. -/
lemma llGetNthNode_past {heap : Memory α} {list : Ll} {n : ℕ} (hn : list.size ≤ n) :
    llGetNthNode heap list n = .ok none := by
  rw [llGetNthNode]
  split_ifs
  · rfl
  · rfl

lemma llRemoveNthNode_empty {heap : Memory α} {list : Ll} (h : list.head = none) (n : ℕ) :
    llRemoveNthNode heap list n = .ok (heap,list,none) := if_pos h

/-- A write at one address leaves all that was in use in use. -/
lemma used_update {heap : Memory α} {b : Addr} (hb : heap b ≠ none) (a : Addr) (node : LlNode α) :
    Function.update heap a (some node) b ≠ none := by
  rw [Function.update_apply]
  split_ifs
  · exact Option.some_ne_none node
  · exact hb

namespace Ll.Represents
variable {heap : Memory α} {list : Ll} {nodes l₁ l₂ : List (Addr × α)} {a b : Addr} {x y : α}

lemma head_ne_none (h : Represents heap list nodes) (hne : nodes ≠ []) : list.head ≠ none := by
  intro hnone
  have hchain := h.chain
  rw [hnone] at hchain
  cases nodes with
  | nil => exact hne rfl
  | cons node nodes => cases hchain.1

lemma head_eq_none (h : Represents heap list []) : list.head = none := h.chain

/-- The shortcut through the tail and the walk from the head agree. -/
theorem get (h : Represents heap list (l₁ ++ (a,x) :: l₂)) :
    llGetNthNode heap list l₁.length = .ok (some a) ∧ walk heap list.head l₁.length = .ok (some a) := by
  have hsize := h.size_eq
  rw [List.length_append,List.length_cons] at hsize
  have hwalk := walk_chain h.chain
  refine ⟨?_,hwalk⟩
  rw [llGetNthNode,if_neg (h.head_ne_none (by simp)),if_neg (by omega)]
  split_ifs with hlast
  · have hnil : l₂ = [] := List.eq_nil_of_length_eq_zero (by omega)
    subst hnil
    rw [h.tail_eq List.getLast?_concat]
  · exact hwalk

/-- The tail is right for every list that ends in the same nodes. -/
lemma tail_of_append (h : Represents heap list (l₁ ++ l₂)) (hne : l₂ ≠ []) {l : List (Addr × α)} {node : Addr × α}
    (hlast : (l ++ l₂).getLast? = some node) : list.tail = some node.1 := by
  apply h.tail_eq
  rwa [List.getLast?_append_of_ne_nil _ hne] at hlast ⊢

/-- A node at another address is written without effect. -/
lemma frame (h : Represents heap list nodes) (ha : ∀ node ∈ nodes, node.1 ≠ a) (node : Option (LlNode α)) :
    Represents (Function.update heap a node) list nodes :=
  ⟨h.chain.frame ha node,h.nodup,h.size_eq,h.tail_eq⟩

/-- The first node is removed. -/
lemma remove_first (h : Represents heap list ((b,y) :: l₂)) {n : ℕ} (hn : min n (list.size-1) = 0) :
    ∃ list', llRemoveNthNode heap list n = .ok (heap,list',some b) ∧ Represents heap list' l₂ := by
  obtain ⟨hhead,next,hread,hrest⟩ := h.chain
  have hsize := h.size_eq
  have hzero : (if list.size ≤ n then list.size-1 else n) = 0 := by
    split_ifs <;> omega
  refine ⟨{ list with head := next, size := list.size-1 },?_,hrest,(List.nodup_cons.mp h.nodup).2,?_,fun hlast => ?_⟩
  · rw [llRemoveNthNode,if_neg (h.head_ne_none (by simp))]
    simp only [hzero,if_true]
    rw [hhead,deref_some _ hread]
    rfl
  · change list.size - 1 = _
    rw [hsize,List.length_cons,Nat.add_sub_cancel]
  · refine h.tail_eq ?_
    rw [List.getLast?_cons,hlast]
    rfl

/-- A node behind another one is removed; the removed node itself is left as it is. -/
lemma remove_after (h : Represents heap list (l₁ ++ (a,x) :: (b,y) :: l₂)) {n : ℕ}
    (hn : min n (list.size-1) = l₁.length+1) :
    ∃ next heap' list', heap b = some ⟨next,y⟩ ∧ heap' = Function.update heap a (some ⟨next,x⟩) ∧
      llRemoveNthNode heap list n = .ok (heap',list',some b) ∧ Represents heap' list' (l₁ ++ (a,x) :: l₂) := by
  obtain ⟨next,ha,hb,hchain⟩ := h.chain.remove_after h.nodup
  have hsize := h.size_eq
  simp only [List.length_append,List.length_cons] at hsize
  have hpos : (if list.size ≤ n then list.size-1 else n) = l₁.length+1 := by
    split_ifs <;> omega
  let list' : Ll := { head := list.head, tail := if l₁.length+1 = list.size-1 then some a else list.tail,
                      size := list.size-1 }
  refine ⟨next,_,list',hb,rfl,?_,hchain,?_,?_,fun {node} hlast => ?_⟩
  · rw [llRemoveNthNode,if_neg (h.head_ne_none (by simp))]
    simp only [hpos,Nat.add_one_ne_zero,if_false,Nat.add_sub_cancel]
    rw [h.get.1]
    change (deref heap (some a) >>= _) = _
    rw [deref_some _ ha]
    change (deref heap (some b) >>= _) = _
    rw [deref_some _ hb]
    change (setNext heap (some a) next >>= _) = _
    rw [setNext_some ha]
    change Except.ok _ = _
    simp only [list']
    split_ifs <;> rfl
  · refine h.nodup.sublist (List.Sublist.map _ ?_)
    exact (List.Sublist.refl _).append ((List.sublist_cons_self _ _).cons_cons _)
  · change list.size - 1 = _
    rw [List.length_append,List.length_cons]
    omega
  · change (if l₁.length+1 = list.size-1 then some a else list.tail) = some node.1
    cases l₂ with
    | nil =>
      rw [List.getLast?_concat] at hlast
      rw [if_pos (by rw [List.length_nil] at hsize; omega),← Option.some.inj hlast]
    | cons c l₂ =>
      rw [if_neg (by rw [List.length_cons] at hsize; omega)]
      have hnodes : l₁ ++ (a,x) :: (b,y) :: c :: l₂ = (l₁ ++ [(a,x),(b,y)]) ++ c :: l₂ := by simp
      rw [hnodes] at h
      rw [List.append_cons] at hlast
      exact h.tail_of_append (List.cons_ne_nil _ _) hlast

/-- The node at the position, or the last one, leaves the chain and keeps what it holds. -/
theorem remove (h : Represents heap list nodes) (hne : nodes ≠ []) (n : ℕ) :
    ∃ heap' list' l₁ l₂ b y, llRemoveNthNode heap list n = .ok (heap',list',some b) ∧
      nodes = l₁ ++ (b,y) :: l₂ ∧ l₁.length = min n (list.size-1) ∧ heap' b = heap b ∧
      Represents heap' list' (l₁ ++ l₂) ∧ ∀ c, heap c ≠ none → heap' c ≠ none := by
  have hpos := List.length_pos_of_ne_nil hne
  have hsize := h.size_eq
  obtain ⟨l₁,⟨b,y⟩,l₂,hlen,rfl⟩ : ∃ l₁ node l₂, l₁.length = min n (list.size-1) ∧ nodes = l₁ ++ node :: l₂ := by
    have hlt : min n (list.size-1) < nodes.length := by omega
    refine ⟨nodes.take (min n (list.size-1)),nodes[min n (list.size-1)],nodes.drop (min n (list.size-1)+1),?_,?_⟩
    · rw [List.length_take,Nat.min_eq_left hlt.le]
    · rw [← List.drop_eq_getElem_cons hlt,List.take_append_drop]
  obtain rfl | ⟨l₁,⟨a,x⟩,rfl⟩ := List.eq_nil_or_concat' l₁
  · obtain ⟨list',hremove,hrep⟩ := h.remove_first hlen.symm
    exact ⟨heap,list',[],l₂,b,y,hremove,rfl,hlen,rfl,hrep,fun _ hc => hc⟩
  · rw [List.length_append,List.length_singleton] at hlen
    rw [List.append_assoc] at h
    obtain ⟨next,heap',list',hb,rfl,hremove,hrep⟩ := h.remove_after hlen.symm
    have hba : b ≠ a := (ne_of_nodup h.nodup).2 (b,y) List.mem_cons_self
    refine ⟨_,list',l₁ ++ [(a,x)],l₂,b,y,hremove,rfl,?_,Function.update_of_ne hba _ _,?_,
      fun c hc => used_update hc _ _⟩
    · rwa [List.length_append,List.length_singleton]
    · rwa [List.append_assoc]

end Ll.Represents

section Additions
variable {heap heap₁ heap₂ heap₃ : Memory α} {list list₁ list₂ : Ll} {newNode : Addr} {d : α} {n k : ℕ}
  {nodes l₁ l₂ : List (Addr × α)} {a : Addr} {x : α}

/-- An addition goes through the three `if`s. -/
lemma llAddNthNode_eq (hk : min n list.size = k)
    (hhead : addAtHead (Function.update heap newNode (some ⟨none,d⟩)) list k newNode = .ok (heap₁,list₁))
    (hmiddle : addInMiddle heap₁ list₁ k newNode = .ok heap₂)
    (hend : addAtEnd heap₂ list₁ k newNode = .ok (heap₃,list₂)) :
    llAddNthNode heap list n (some d) newNode = .ok (heap₃,{ list₂ with size := list₂.size+1 }) := by
  have hclamp : (if list.size < n then list.size else n) = k := by
    split_ifs <;> omega
  rw [llAddNthNode]
  simp only [hclamp]
  rw [hhead]
  change (addInMiddle heap₁ list₁ k newNode >>= _) = _
  rw [hmiddle]
  change (addAtEnd heap₂ list₁ k newNode >>= _) = _
  rw [hend]
  rfl

/-- The two writes that put the new node behind another one. -/
lemma link_eq {next next₀ : Option Addr} (ha : heap a = some ⟨next,x⟩) (hnew : heap newNode = some ⟨next₀,d⟩)
    (hne : newNode ≠ a) (q : Option Addr) :
    (setNext heap (some a) (some newNode) >>= fun heap => setNext heap (some newNode) q) =
      .ok (Function.update (Function.update heap a (some ⟨some newNode,x⟩)) newNode (some ⟨q,d⟩)) := by
  rw [setNext_some ha]
  apply setNext_some
  rw [Function.update_of_ne hne,hnew]

lemma addAtHead_skip (h : k ≠ 0) : addAtHead heap list k newNode = .ok (heap,list) := if_neg h

lemma addAtHead_zero {node : LlNode α} (h : heap newNode = some node) :
    addAtHead heap list 0 newNode = .ok (Function.update heap newNode (some { node with next := list.head }),
      { list with head := some newNode }) := by
  rw [addAtHead,if_pos rfl,setNext_some h]
  rfl

lemma addInMiddle_skip (h : ¬ (1 ≤ k ∧ k < list.size)) : addInMiddle heap list k newNode = .ok heap := if_neg h

lemma addAtEnd_skip (h : k ≠ list.size) : addAtEnd heap list k newNode = .ok (heap,list) := if_neg h

lemma addAtEnd_empty (h : list.size = 0) :
    addAtEnd heap list 0 newNode = .ok (heap,{ list with tail := some newNode }) := by
  rw [addAtEnd,if_pos h.symm,if_neg (not_not.mpr h)]
  rfl

namespace Ll.Represents

lemma nodup_cons (h : Represents heap list nodes) (hfresh : ∀ node ∈ nodes, node.1 ≠ newNode) :
    (((newNode,d) :: nodes).map Prod.fst).Nodup := by
  refine List.nodup_cons.mpr ⟨fun hmem => ?_,h.nodup⟩
  obtain ⟨node,hnode,haddr⟩ := List.mem_map.mp hmem
  exact hfresh node hnode haddr

/-- A new node before all others. On an empty list the first and the third `if` both apply. -/
lemma add_first (h : Represents heap list nodes) (hnew : heap newNode = none) (hn : min n list.size = 0) :
    ∃ list', llAddNthNode heap list n (some d) newNode =
        .ok (Function.update heap newNode (some ⟨list.head,d⟩),list') ∧
      Represents (Function.update heap newNode (some ⟨list.head,d⟩)) list' ((newNode,d) :: nodes) := by
  have hfresh := h.chain.fresh hnew
  have hsize := h.size_eq
  have hhead := @addAtHead_zero _ (Function.update heap newNode (some ⟨none,d⟩)) list newNode _
    (Function.update_self _ _ _)
  rw [Function.update_idem] at hhead
  have hmiddle := @addInMiddle_skip _ (Function.update heap newNode (some ⟨list.head,d⟩))
    { list with head := some newNode } newNode 0 (by omega)
  cases nodes with
  | nil =>
    refine ⟨_,llAddNthNode_eq hn hhead hmiddle (addAtEnd_empty hsize),h.chain.insert_head hfresh,
      h.nodup_cons hfresh,by rw [List.length_cons,← hsize],fun hlast => ?_⟩
    obtain rfl := Option.some.inj hlast
    rfl
  | cons first nodes =>
    refine ⟨_,llAddNthNode_eq hn hhead hmiddle (addAtEnd_skip ?_),h.chain.insert_head hfresh,
      h.nodup_cons hfresh,by rw [List.length_cons,← hsize],fun hlast => ?_⟩
    · change 0 ≠ list.size
      rw [hsize]
      exact (Nat.succ_ne_zero _).symm
    · exact h.tail_eq (by rwa [List.getLast?_cons_cons] at hlast)

/-- A node at a fresh address keeps the addresses distinct, wherever it comes. -/
lemma nodup_insert (h : Represents heap list (l₁ ++ l₂)) (hfresh : ∀ node ∈ l₁ ++ l₂, node.1 ≠ newNode) :
    ((l₁ ++ (newNode,d) :: l₂).map Prod.fst).Nodup := by
  have hperm : (l₁ ++ (newNode,d) :: l₂).Perm ((newNode,d) :: (l₁ ++ l₂)) := List.perm_middle
  exact (hperm.map _).nodup_iff.mpr (h.nodup_cons hfresh)

/-- The new node is linked behind a node found by its position. -/
lemma addInMiddle_eq (h : Represents heap list (l₁ ++ (a,x) :: l₂)) (hne : l₂ ≠ []) {next next₀ : Option Addr}
    (ha : heap a = some ⟨next,x⟩) (hnew : heap newNode = some ⟨next₀,d⟩) (haddr : newNode ≠ a) :
    addInMiddle heap list (l₁.length+1) newNode =
      .ok (Function.update (Function.update heap a (some ⟨some newNode,x⟩)) newNode (some ⟨next,d⟩)) := by
  have hsize := h.size_eq
  have hpos := List.length_pos_of_ne_nil hne
  rw [List.length_append,List.length_cons] at hsize
  rw [addInMiddle,if_pos (by omega),Nat.add_sub_cancel,h.get.1]
  change (deref _ (some a) >>= _) = _
  rw [deref_some _ ha]
  exact link_eq ha hnew haddr next

/-- The new node is linked behind the tail and becomes the tail. -/
lemma addAtEnd_eq (h : Represents heap list (l₁ ++ [(a,x)])) {next next₀ : Option Addr}
    (ha : heap a = some ⟨next,x⟩) (hnew : heap newNode = some ⟨next₀,d⟩) (haddr : newNode ≠ a) :
    addAtEnd heap list (l₁.length+1) newNode =
      .ok (Function.update (Function.update heap a (some ⟨some newNode,x⟩)) newNode (some ⟨none,d⟩),
        { list with tail := some newNode }) := by
  have hsize := h.size_eq
  have htail : list.tail = some a := h.tail_eq List.getLast?_concat
  rw [List.length_append,List.length_singleton] at hsize
  rw [addAtEnd,if_pos hsize.symm,if_pos (by omega),htail,← bind_assoc,link_eq ha hnew haddr none]
  rfl

/-- A new node behind a node of the list, in the middle or at the end. -/
lemma add_after (h : Represents heap list (l₁ ++ (a,x) :: l₂)) (hnew : heap newNode = none)
    (hn : min n list.size = l₁.length+1) :
    ∃ next list', llAddNthNode heap list n (some d) newNode =
        .ok (Function.update (Function.update heap a (some ⟨some newNode,x⟩)) newNode (some ⟨next,d⟩),list') ∧
      Represents (Function.update (Function.update heap a (some ⟨some newNode,x⟩)) newNode (some ⟨next,d⟩)) list'
        (l₁ ++ (a,x) :: (newNode,d) :: l₂) := by
  have hfresh := h.chain.fresh hnew
  have hne : newNode ≠ a := (hfresh (a,x) (by simp)).symm
  have hsize := h.size_eq
  rw [List.length_append,List.length_cons] at hsize
  obtain ⟨next,ha,hchain⟩ := h.chain.insert_after (d := d) h.nodup hfresh
  have hnodup : ((l₁ ++ (a,x) :: (newNode,d) :: l₂).map Prod.fst).Nodup := by
    rw [List.append_cons] at h hfresh ⊢
    exact h.nodup_insert hfresh
  -- `malloc` returns the node with its data and without a link
  have h₀ := h.frame hfresh (some ⟨none,d⟩)
  have hnew₀ := Function.update_self newNode (some ⟨none,d⟩) heap
  have ha₀ : Function.update heap newNode (some ⟨none,d⟩) a = some ⟨next,x⟩ := by
    rw [Function.update_of_ne hne.symm,ha]
  have hlinked (q : Option Addr) : Function.update (Function.update (Function.update heap newNode (some ⟨none,d⟩)) a
      (some ⟨some newNode,x⟩)) newNode (some ⟨q,d⟩) =
      Function.update (Function.update heap a (some ⟨some newNode,x⟩)) newNode (some ⟨q,d⟩) := by
    rw [Function.update_comm hne,Function.update_idem]
  have hhead := @addAtHead_skip _ (Function.update heap newNode (some ⟨none,d⟩)) list newNode _
    (Nat.succ_ne_zero l₁.length)
  cases l₂ with
  | nil =>
    obtain ⟨_,ha',hnext⟩ := h.chain.next
    obtain rfl : next = none := by
      obtain rfl := congrArg Node.next (Option.some.inj (ha.symm.trans ha'))
      exact hnext
    have hmiddle := @addInMiddle_skip _ (Function.update heap newNode (some ⟨none,d⟩)) list newNode (l₁.length+1)
      (by rw [hsize,List.length_nil]; omega)
    have hend := h₀.addAtEnd_eq ha₀ hnew₀ hne
    rw [hlinked] at hend
    refine ⟨none,_,llAddNthNode_eq hn hhead hmiddle hend,hchain,hnodup,by simp [hsize],fun {node} hlast => ?_⟩
    have hnode : (l₁ ++ [(a,x),(newNode,d)]).getLast? = some (newNode,d) := by simp
    obtain rfl := Option.some.inj (hnode.symm.trans hlast)
    rfl
  | cons c l₂ =>
    have hmiddle := h₀.addInMiddle_eq (List.cons_ne_nil _ _) ha₀ hnew₀ hne
    rw [hlinked] at hmiddle
    rw [List.length_cons] at hsize
    refine ⟨next,_,llAddNthNode_eq hn hhead hmiddle (addAtEnd_skip (by omega)),hchain,hnodup,?_,fun hlast => ?_⟩
    · change list.size + 1 = _
      simp only [List.length_append,List.length_cons]
      omega
    · rw [List.append_cons] at h
      have hnodes : l₁ ++ (a,x) :: (newNode,d) :: c :: l₂ = (l₁ ++ [(a,x),(newNode,d)]) ++ c :: l₂ := by simp
      rw [hnodes] at hlast
      exact h.tail_of_append (List.cons_ne_nil _ _) hlast

/-- The new node comes to the position, or to the end. -/
theorem add (h : Represents heap list nodes) (hnew : heap newNode = none) (n : ℕ) (d : α) :
    ∃ heap' list' l₁ l₂, llAddNthNode heap list n (some d) newNode = .ok (heap',list') ∧ nodes = l₁ ++ l₂ ∧
      l₁.length = min n list.size ∧ Represents heap' list' (l₁ ++ (newNode,d) :: l₂) ∧
      ∀ c, heap c ≠ none → heap' c ≠ none := by
  have hsize := h.size_eq
  obtain ⟨l₁,l₂,hlen,rfl⟩ : ∃ l₁ l₂, l₁.length = min n list.size ∧ nodes = l₁ ++ l₂ := by
    refine ⟨nodes.take (min n list.size),nodes.drop (min n list.size),?_,(List.take_append_drop _ _).symm⟩
    rw [List.length_take]
    omega
  obtain rfl | ⟨l₁,⟨a,x⟩,rfl⟩ := List.eq_nil_or_concat' l₁
  · obtain ⟨list',hadd,hrep⟩ := h.add_first hnew hlen.symm
    exact ⟨_,list',[],l₂,hadd,rfl,hlen,hrep,fun c hc => used_update hc _ _⟩
  · rw [List.length_append,List.length_singleton] at hlen
    rw [List.append_assoc] at h
    obtain ⟨next,list',hadd,hrep⟩ := h.add_after hnew hlen.symm
    refine ⟨_,list',l₁ ++ [(a,x)],l₂,hadd,rfl,?_,?_,fun c hc => used_update (used_update hc _ _) _ _⟩
    · rwa [List.length_append,List.length_singleton]
    · rwa [List.append_assoc]

end Ll.Represents

end Additions

end ClientServerApp.LinkedList
