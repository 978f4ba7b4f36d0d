import ClientServerApp.LinkedList.Refinement

/-! What the linked list is after any sequence of calls. -/
namespace ClientServerApp.LinkedList
open Chain

variable {α : Type}

section Sequences
variable {l₁ l₂ : List α} {n : ℕ}

lemma insertIdx_length (l₁ l₂ : List α) (d : α) : (l₁ ++ l₂).insertIdx l₁.length d = l₁ ++ d :: l₂ := by
  induction l₁ with
  | nil => rfl
  | cons x l₁ ih => rw [List.cons_append,List.length_cons,List.insertIdx_succ_cons,ih,List.cons_append]

lemma addNth_eq (h : l₁.length = min n (l₁ ++ l₂).length) (d : α) :
    ClientServerApp.llAddNthNode (l₁ ++ l₂) n d = l₁ ++ d :: l₂ := by
  rw [ClientServerApp.llAddNthNode,← h,insertIdx_length]

lemma removeNth_eq {d : α} (h : l₁.length = min n ((l₁ ++ d :: l₂).length-1)) :
    ClientServerApp.llRemoveNthNode (l₁ ++ d :: l₂) n = l₁ ++ l₂ := by
  rw [ClientServerApp.llRemoveNthNode,← h,List.eraseIdx_append_of_length_le le_rfl,Nat.sub_self,
    List.eraseIdx_cons_zero]

end Sequences

/-- Between two calls the nodes hold the data, and the removed nodes that are not freed yet are none of them. -/
structure State.Intact (s : State α) (nodes : List (Addr × α)) : Prop where
  represents : s.list.Represents s.heap nodes
  nodup : s.handed.Nodup
  used {a : Addr} : a ∈ s.handed → s.heap a ≠ none
  apart {a : Addr} : a ∈ s.handed → ∀ node ∈ nodes, node.1 ≠ a

namespace State.Intact
variable {s : State α} {nodes : List (Addr × α)} {op : LlOp α}

/-- The new node is none of the removed ones, which are still in use. -/
lemma add (h : s.Intact nodes) {newNode : Addr} (hnew : s.heap newNode = none) (n : ℕ) (d : α) :
    ∃ s' nodes', (LlOp.add n (some d) newNode).apply s = .ok s' ∧ s'.Intact nodes' ∧
      nodes'.map Prod.snd = ClientServerApp.llAddNthNode (nodes.map Prod.snd) n d := by
  obtain ⟨heap',list',l₁,l₂,hadd,rfl,hlen,hrep,hused⟩ := h.represents.add hnew n d
  refine ⟨⟨heap',list',s.handed⟩,_,?_,⟨hrep,h.nodup,fun ha => hused _ (h.used ha),fun {a} ha node hnode => ?_⟩,?_⟩
  · rw [LlOp.apply,hadd]
    rfl
  · rw [List.mem_append,List.mem_cons] at hnode
    obtain hbefore | rfl | hafter := hnode
    · exact h.apart ha node (List.mem_append_left _ hbefore)
    · rintro rfl
      exact h.used ha hnew
    · exact h.apart ha node (List.mem_append_right _ hafter)
  · rw [List.map_append,List.map_append,List.map_cons,addNth_eq]
    rwa [← List.map_append,List.length_map,List.length_map,← h.represents.size_eq]

/-- The removed node is in use, and none of the nodes that stay. -/
lemma remove (h : s.Intact nodes) (n : ℕ) :
    ∃ s' nodes', (LlOp.remove n).apply s = .ok s' ∧ s'.Intact nodes' ∧
      nodes'.map Prod.snd = ClientServerApp.llRemoveNthNode (nodes.map Prod.snd) n := by
  obtain rfl | hne := eq_or_ne nodes []
  · refine ⟨s,[],?_,h,rfl⟩
    rw [LlOp.apply,llRemoveNthNode_empty h.represents.head_eq_none]
    rfl
  · obtain ⟨heap',list',l₁,l₂,b,y,hremove,rfl,hlen,-,hrep,hused⟩ := h.represents.remove hne n
    have hstay : ∀ node ∈ l₁ ++ l₂, node ∈ l₁ ++ (b,y) :: l₂ ∧ node.1 ≠ b := by
      intro node hnode
      obtain hbefore | hafter := List.mem_append.mp hnode
      · exact ⟨List.mem_append_left _ hbefore,(ne_of_nodup h.represents.nodup).1 node hbefore⟩
      · exact ⟨List.mem_append_right _ (List.mem_cons_of_mem _ hafter),
          (ne_of_nodup h.represents.nodup).2 node hafter⟩
    refine ⟨⟨heap',list',b :: s.handed⟩,_,?_,⟨hrep,?_,fun {a} ha => ?_,fun {a} ha node hnode => ?_⟩,?_⟩
    · rw [LlOp.apply,hremove]
      rfl
    · exact List.nodup_cons.mpr ⟨fun hmem => h.apart hmem (b,y) (by simp) rfl,h.nodup⟩
    · apply hused
      obtain rfl | ha := List.mem_cons.mp ha
      · obtain ⟨next,hread,-⟩ := h.represents.chain.next
        rw [hread]
        exact Option.some_ne_none _
      · exact h.used ha
    · obtain rfl | ha := List.mem_cons.mp ha
      · exact (hstay node hnode).2
      · exact h.apart ha node (hstay node hnode).1
    · rw [List.map_append,List.map_append,List.map_cons,removeNth_eq]
      rw [List.length_map,hlen,h.represents.size_eq]
      simp

/-- The freed node belongs to nobody. -/
lemma freeNode (h : s.Intact nodes) {a : Addr} (ha : a ∈ s.handed) :
    ∃ s', (LlOp.freeNode a).apply s = .ok s' ∧ s'.Intact nodes := by
  refine ⟨_,rfl,h.represents.frame (h.apart ha) none,h.nodup.erase a,fun {b} hb => ?_,fun hb =>
    h.apart (List.mem_of_mem_erase hb)⟩
  obtain ⟨hne,hmem⟩ := h.nodup.mem_erase_iff.mp hb
  change Function.update s.heap a none b ≠ none
  rw [Function.update_of_ne hne]
  exact h.used hmem

/-- Each call does to the nodes what it means for the sequence. -/
theorem step (h : s.Intact nodes) (allowed : op.Allowed s) :
    ∃ s' nodes', op.apply s = .ok s' ∧ s'.Intact nodes' ∧ nodes'.map Prod.snd = op.onData (nodes.map Prod.snd) := by
  cases op with
  | add n data newNode =>
    cases data with
    | none => exact ⟨s,nodes,rfl,h,rfl⟩
    | some d => exact h.add allowed n d
  | remove n => exact h.remove n
  | freeNode a =>
    obtain ⟨s',happly,hintact⟩ := h.freeNode allowed
    exact ⟨s',nodes,happly,hintact,rfl⟩

end State.Intact

/-- Every run keeps the list intact, and its nodes hold the data. -/
theorem run_intact {ops : List (LlOp α)} {s : State α} (run : Run ops s) :
    ∃ nodes, s.Intact nodes ∧ nodes.map Prod.snd = dataAfter ops := by
  induction run with
  | create heap =>
    exact ⟨[],⟨⟨rfl,List.nodup_nil,rfl,nofun⟩,List.nodup_nil,nofun,nofun⟩,rfl⟩
  | step run allowed apply ih =>
    obtain ⟨nodes,hintact,hdata⟩ := ih
    obtain ⟨s',nodes',happly,hintact',hdata'⟩ := hintact.step allowed
    obtain rfl := Except.ok.inj (happly.symm.trans apply)
    refine ⟨nodes',hintact',?_⟩
    rw [hdata',hdata,dataAfter,dataAfter,List.foldl_append]
    rfl

/-- After any sequence of calls the list is the chain of its data, each position is found, through the tail as
by walking, a removal returns the node that held the data at the position, and no call has undefined behaviour. -/
theorem linkedList_refines {ops : List (LlOp α)} {s : State α} (run : Run ops s) :
    ∃ nodes, s.list.Represents s.heap nodes ∧ nodes.map Prod.snd = dataAfter ops ∧
      (∀ n node, nodes[n]? = some node →
        llGetNthNode s.heap s.list n = .ok (some node.1) ∧ walk s.heap s.list.head n = .ok (some node.1)) ∧
      (∀ n, s.list.size ≤ n → llGetNthNode s.heap s.list n = .ok none) ∧
      (nodes = [] → ∀ n, llRemoveNthNode s.heap s.list n = .ok (s.heap,s.list,none)) ∧
      (nodes ≠ [] → ∀ n, ∃ heap' list' a x next, nodes[min n (s.list.size-1)]? = some (a,x) ∧
        llRemoveNthNode s.heap s.list n = .ok (heap',list',some a) ∧ heap' a = some ⟨next,x⟩) ∧
      ∀ op : LlOp α, op.Allowed s → ∃ s', op.apply s = .ok s' := by
  obtain ⟨nodes,hintact,hdata⟩ := run_intact run
  have hrep := hintact.represents
  refine ⟨nodes,hrep,hdata,fun n node hnode => ?_,fun n hn => llGetNthNode_past hn,?_,fun hne n => ?_,?_⟩
  · obtain ⟨hn,rfl⟩ := List.getElem?_eq_some_iff.mp hnode
    have hsplit : nodes = nodes.take n ++ (nodes[n].1,nodes[n].2) :: nodes.drop (n+1) := by
      rw [Prod.mk.eta,← List.drop_eq_getElem_cons hn,List.take_append_drop]
    have hget := (hsplit ▸ hrep).get
    rwa [List.length_take,Nat.min_eq_left hn.le] at hget
  · rintro rfl n
    exact llRemoveNthNode_empty hrep.head_eq_none n
  · obtain ⟨heap',list',l₁,l₂,b,y,hremove,rfl,hlen,hkept,-,-⟩ := hrep.remove hne n
    obtain ⟨next,hread,-⟩ := hrep.chain.next
    refine ⟨heap',list',b,y,next,?_,hremove,hkept.trans hread⟩
    rw [← hlen,List.getElem?_append_right le_rfl,Nat.sub_self,List.getElem?_cons_zero]
  · intro op allowed
    obtain ⟨s',-,happly,-⟩ := hintact.step allowed
    exact ⟨s',happly⟩

/-- Two nodes are added and removed, the last one first, and the list is filled again in the memory of the first
that was freed. -/
theorem linkedList_refines_refilled :
    ∃ s : State ℕ, Run [.add 0 (some 5) 1,.add 9 (some 7) 2,.remove 9,.freeNode 2,.remove 0,.add 4 (some 8) 2] s ∧
      ∃ nodes, s.list.Represents s.heap nodes ∧ nodes.map Prod.snd = [8] := by
  have h₁ := @Run.step ℕ [] _ _ (.add 0 (some 5) 1) (.create fun _ => none) rfl rfl
  have h₂ := @Run.step _ _ _ _ (.add 9 (some 7) 2) h₁ rfl rfl
  have h₃ := @Run.step _ _ _ _ (.remove 9) h₂ trivial rfl
  have h₄ := @Run.step _ _ _ _ (.freeNode 2) h₃ (List.mem_singleton.mpr rfl) rfl
  have h₅ := @Run.step _ _ _ _ (.remove 0) h₄ trivial rfl
  have h₆ := @Run.step _ _ _ _ (.add 4 (some 8) 2) h₅ rfl rfl
  obtain ⟨nodes,hrep,hdata,-⟩ := linkedList_refines h₆
  exact ⟨_,h₆,nodes,hrep,hdata⟩

end ClientServerApp.LinkedList
