import ClientServerApp.Trie.History
import Mathlib.Algebra.BigOperators.Fin

/-! The nodes of a trie: how many there are, what the operations add to them and take away, and the structure
that they have after any history. -/
namespace ClientServerApp
open Finset TrieNode

namespace TrieNode
variable {n : ℕ}

mutual

/-- The weights of the nodes reached from a node, by their flags, added up. -/
def total (weight : Bool → ℕ) : TrieNode n → ℕ
  | ⟨_,endOfWord,children,_⟩ => weight endOfWord + ∑ i, linkTotal weight (children i)

def linkTotal (weight : Bool → ℕ) : Option (TrieNode n) → ℕ
  | none => 0
  | some t => total weight t

end

/-- The number of nodes reached from a node, itself included. -/
def nodeCount (node : TrieNode n) : ℕ := node.total fun _ => 1

/-- The number of nodes reached from a node that end a word. -/
def wordCount (node : TrieNode n) : ℕ := node.total Bool.toNat

/-- The second node is a child of the first. -/
def Link (node t : TrieNode n) : Prop := ∃ i, node.children i = some t

/-- The second node is reached from the first. -/
def Reaches : TrieNode n → TrieNode n → Prop := Relation.ReflTransGen Link

section Totals
variable {weight : Bool → ℕ}

@[simp] theorem linkTotal_none : linkTotal weight (none : Option (TrieNode n)) = 0 := by rw [linkTotal]

@[simp] theorem linkTotal_some (t : TrieNode n) : linkTotal weight (some t) = t.total weight := by rw [linkTotal]

lemma total_eq (node : TrieNode n) :
    node.total weight = weight node.endOfWord + ∑ i, linkTotal weight (node.children i) := by
  cases node
  rw [total]

@[simp] theorem total_create : (trieNodeCreate : TrieNode n).total weight = weight false := by
  simp [total_eq,trieNodeCreate]

/-- When a child is replaced, its total is. -/
lemma total_update (weight : Bool → ℕ) (node : TrieNode n) (i : Fin n) (o : Option (TrieNode n)) (count : ℤ) :
    total weight { node with children := Function.update node.children i o, nChildren := count } +
      linkTotal weight (node.children i) = node.total weight + linkTotal weight o := by
  have hsum : (fun j => linkTotal weight (Function.update node.children i o j)) =
      Function.update (fun j => linkTotal weight (node.children j)) i (linkTotal weight o) := by
    funext j
    by_cases hj : j = i
    · subst j
      simp
    · simp [Function.update_of_ne hj]
  rw [total_eq,total_eq node,hsum,sum_update_of_mem (mem_univ i),
    ← add_sum_erase univ (fun j => linkTotal weight (node.children j)) (mem_univ i),sdiff_singleton_eq_erase]
  ring

/-- A node without links has its own weight only. -/
lemma total_leaf {node : TrieNode n} (h : ∀ i, node.children i = none) :
    node.total weight = weight node.endOfWord := by
  simp [total_eq,h]

end Totals

end TrieNode

variable {alphabet : List UInt8}

section Counts
variable {info info' : TrieInfo} {node node' : TrieNode alphabet.length} {key value : List UInt8}

/-- An insertion creates some nodes without the flag and sets the flag of one. -/
lemma trieInsertHelper_total (ha : info.alphabet = alphabet) (hkey : ∀ c ∈ key, c ∈ alphabet)
    (hrun : trieInsertHelper info node key value = .ok (info',node')) :
    ∃ created : ℕ, info'.nNodes = info.nNodes + created ∧
      ∀ weight, node'.total weight + weight (node.contentAt key).1 =
        node.total weight + created * weight false + weight true := by
  induction key generalizing info node node' with
  | nil =>
    rw [trieInsertHelper] at hrun
    split_ifs at hrun with hv
    cases hrun
    refine ⟨0,by simp,fun weight => ?_⟩
    rw [total_eq,total_eq node,contentAt_nil]
    simp
    ring
  | cons c key ih =>
    obtain ⟨i,hi⟩ := exists_slot (hkey c (by simp))
    have hrest : ∀ d ∈ key, d ∈ alphabet := fun d hd => hkey d (by simp [hd])
    have hidx : getIndexFromAlphabet info.alphabet c = ((i : ℕ) : ℤ) := by rw [ha,getIndex_of_slot hi]
    have hne : ((i : ℕ) : ℤ) ≠ -1 := by omega
    rw [trieInsertHelper,hidx,if_neg hne,child_fin] at hrun
    cases ht : node.children i with
    | some t =>
      rw [ht] at hrun
      change (trieInsertHelper info t key value >>= _) = _ at hrun
      obtain ⟨⟨info₁,t'⟩,hinner,hpure⟩ := Outcome.bind_eq_ok.mp hrun
      cases hpure
      obtain ⟨created,hnodes,htotal⟩ := ih ha hrest hinner
      refine ⟨created,hnodes,fun weight => ?_⟩
      have hupdate := total_update weight node i (some t') node.nChildren
      have hbelow := htotal weight
      rw [setChild_fin,contentAt_cons hi,ht,Option.elim_some]
      rw [ht,linkTotal_some,linkTotal_some] at hupdate
      omega
    | none =>
      rw [ht] at hrun
      change (trieInsertHelper { info with nNodes := info.nNodes+1 } trieNodeCreate key value >>= _) = _ at hrun
      obtain ⟨⟨info₁,t'⟩,hinner,hpure⟩ := Outcome.bind_eq_ok.mp hrun
      cases hpure
      obtain ⟨created,hnodes,htotal⟩ := @ih { info with nNodes := info.nNodes+1 } _ _ ha hrest hinner
      refine ⟨created+1,by rw [hnodes]; push_cast; ring,fun weight => ?_⟩
      have hupdate := total_update weight node i (some t') (node.nChildren+1)
      have hbelow := htotal weight
      rw [contentAt_create,total_create] at hbelow
      rw [setChild_fin,contentAt_cons hi,ht,Option.elim_none,add_mul,one_mul]
      rw [ht,linkTotal_some,linkTotal_none] at hupdate
      change total weight { node with children := Function.update node.children i (some t'),
                                      nChildren := node.nChildren+1 } + _ = _
      omega

/-- What a removal has done to the counters and to the buffers: the flag of the key is gone, its buffer is
freed, and some nodes without the flag are deleted. -/
structure RemovalCounted (info : TrieInfo) (node : TrieNode alphabet.length) (key : List UInt8) (info' : TrieInfo)
    (node' : TrieNode alphabet.length) : Prop where
  size_eq : info'.size = info.size - (node.contentAt key).1.toNat
  allocated_eq : info'.allocated = info.allocated
  freed_eq : info'.freed = (node.contentAt key).2.toList.map ValueBuffer.allocation ++ info.freed
  total : ∃ deleted : ℕ, info'.nNodes = info.nNodes - deleted ∧
    ∀ weight, node'.total weight + deleted * weight false + weight (node.contentAt key).1 =
      node.total weight + weight false

namespace RemovalCounted

/-- A key that leads nowhere costs nothing. -/
lemma absent (hkey : node.contentAt key = (false,none)) : RemovalCounted info node key info node where
  size_eq := by simp [hkey]
  allocated_eq := rfl
  freed_eq := by simp [hkey]
  total := ⟨0,by simp,fun weight => by simp [hkey]⟩

variable {t t' : TrieNode alphabet.length} {c : UInt8} {i : Fin alphabet.length}
  (hi : alphabet.finIdxOf? c = some i) (ht : node.children i = some t)
  (hc : RemovalCounted info t key info' t')
include hi ht hc

/-- The child below which the key was removed is kept. -/
lemma keep : RemovalCounted info node (c :: key) info'
    { node with children := Function.update node.children i (some t') } := by
  have hat : node.contentAt (c :: key) = t.contentAt key := by rw [contentAt_cons hi,ht,Option.elim_some]
  obtain ⟨deleted,hnodes,htotal⟩ := hc.total
  refine ⟨hat ▸ hc.size_eq,hc.allocated_eq,hat ▸ hc.freed_eq,deleted,hnodes,fun weight => ?_⟩
  have hupdate := total_update weight node i (some t') node.nChildren
  have hbelow := htotal weight
  rw [ht,linkTotal_some,linkTotal_some] at hupdate
  rw [hat]
  omega

/-- The child has become a leaf without the flag and is deleted. -/
lemma delete (hlinks : ∀ j, t'.children j = none) (hflag : t'.endOfWord = false) (hvalue : t'.value = none) :
    RemovalCounted info node (c :: key) { trieNodeFree info' t' with nNodes := info'.nNodes-1 }
      { node with children := Function.update node.children i none, nChildren := node.nChildren-1 } := by
  have hat : node.contentAt (c :: key) = t.contentAt key := by rw [contentAt_cons hi,ht,Option.elim_some]
  have hfree : trieNodeFree info' t' = info' := by
    rw [trieNodeFree,hvalue]
    rfl
  obtain ⟨deleted,hnodes,htotal⟩ := hc.total
  rw [hfree]
  refine ⟨hat ▸ hc.size_eq,hc.allocated_eq,hat ▸ hc.freed_eq,deleted+1,?_,fun weight => ?_⟩
  · rw [hnodes]
    push_cast
    ring
  · have hupdate := total_update weight node i none (node.nChildren-1)
    have hbelow := htotal weight
    rw [total_leaf hlinks,hflag] at hbelow
    rw [ht,linkTotal_some,linkTotal_none] at hupdate
    rw [hat,add_mul,one_mul]
    omega

end RemovalCounted

lemma trieRemoveHelper_counted (ha : info.alphabet = alphabet) (h : node.WellFormed) {delete : Bool}
    (hrun : trieRemoveHelper info node key = .ok (info',node',delete)) :
    RemovalCounted info node key info' node' := by
  induction key generalizing info info' node node' delete with
  | nil =>
    have hvalue := h.value_isSome
    rw [trieRemoveHelper] at hrun
    split_ifs at hrun with hflag
    · cases hrun
      refine ⟨by simp [TrieInfo.freeValue,hflag],rfl,rfl,0,by simp [TrieInfo.freeValue],fun weight => ?_⟩
      rw [total_eq,total_eq node,contentAt_nil,hflag]
      simp
      ring
    · cases hrun
      rw [Bool.not_eq_true] at hflag
      rw [hflag,Option.isSome_eq_false_iff,Option.isNone_iff_eq_none] at hvalue
      exact .absent (by rw [contentAt_nil,hflag,hvalue])
  | cons c key ih =>
    by_cases hc : c ∈ alphabet
    · obtain ⟨i,hi⟩ := exists_slot hc
      have hidx : getIndexFromAlphabet info.alphabet c = ((i : ℕ) : ℤ) := by rw [ha,getIndex_of_slot hi]
      cases ht : node.children i with
      | none =>
        rw [trieRemoveHelper_missing hidx ht] at hrun
        cases hrun
        exact .absent (by rw [contentAt_cons hi,ht]; rfl)
      | some t =>
        obtain ⟨info₁,t',deleteChild,hinner,hremoved⟩ := trieRemoveHelper_spec key ha (h.child ht)
        have hcounted := ih ha (h.child ht) hinner
        cases deleteChild with
        | false =>
          rw [trieRemoveHelper_keep hidx ht hinner,setChild_fin] at hrun
          cases hrun
          exact hcounted.keep hi ht
        | true =>
          obtain ⟨hleaf,hflag⟩ := hremoved.dead rfl
          have hlinks := hremoved.wellFormed.nChildren_eq
          have hvalue := hremoved.wellFormed.value_isSome
          rw [hleaf,eq_comm,Nat.cast_eq_zero,childCount_eq_zero] at hlinks
          rw [hflag,Option.isSome_eq_false_iff,Option.isNone_iff_eq_none] at hvalue
          rw [trieRemoveHelper_delete hidx ht hinner,setChild_fin] at hrun
          cases hrun
          exact hcounted.delete hi ht hlinks hflag hvalue
    · rw [trieRemoveHelper,ha,getIndex_foreign hc,if_pos rfl] at hrun
      cases hrun
      exact .absent (contentAt_cons_foreign node hc key)

end Counts

section Histories
variable {dataSize : ℕ}

lemma trieAfter_concat (ops : List TrieOp) (op : TrieOp) :
    trieAfter dataSize alphabet (ops ++ [op]) = trieAfter dataSize alphabet ops >>= op.apply := by
  simp only [trieAfter,List.foldlM_append,List.foldlM_cons,List.foldlM_nil,bind_pure]

/-- What a created trie has, and every call on a valid trie with the keys of its history keeps, is had after
every history. -/
theorem trieAfter_invariant {P : List TrieOp → Trie alphabet.length → Prop}
    (create : P [] (trieCreate dataSize alphabet.length alphabet))
    (step : ∀ ops op trie trie', op.Proper alphabet trie.info.dataSize → trie.Valid →
      (∀ k, trie.Holds k ↔ k ∈ keysAfter ops) → P ops trie → op.apply trie = .ok trie' → P (ops ++ [op]) trie')
    {ops : List TrieOp} (hops : ∀ op ∈ ops, op.Proper alphabet dataSize) :
    ∃ trie, trieAfter dataSize alphabet ops = .ok trie ∧ trie.Valid ∧ (∀ k, trie.Holds k ↔ k ∈ keysAfter ops) ∧
      P ops trie := by
  obtain ⟨trie,hrun,hvalid,hkeys⟩ := trieAfter_spec hops
  refine ⟨trie,hrun,hvalid,hkeys,?_⟩
  clear hvalid hkeys
  induction ops using List.reverseRecOn generalizing trie with
  | nil =>
    cases hrun
    exact create
  | append_singleton ops op ih =>
    have hbefore : ∀ o ∈ ops, o.Proper alphabet dataSize := fun o ho => hops o (List.mem_append_left _ ho)
    obtain ⟨trie₁,hrun₁,hvalid₁,hsize₁,hread₁⟩ := trieAfter_read hbefore
    have hkeys₁ : ∀ k, trie₁.Holds k ↔ k ∈ keysAfter ops := fun k => by
      rw [mem_keysAfter dataSize,← hread₁,hvalid₁.read_isSome]
    rw [trieAfter_concat,hrun₁] at hrun
    exact step ops op trie₁ trie (hsize₁ ▸ hops op (by simp)) hvalid₁ hkeys₁ (ih hbefore trie₁ hrun₁) hrun

/-- A successful insertion, field by field. -/
lemma trieInsert_eq_ok {trie trie' : Trie alphabet.length} {key value : List UInt8} (h : trie.Valid)
    (hop : (TrieOp.insert key value).Proper alphabet trie.info.dataSize)
    (hrun : (TrieOp.insert key value).apply trie = .ok trie') :
    trie'.info.size = trie.info.size + 1 ∧ trie'.info.allocated = trie.info.allocated + 1 ∧
    trie'.info.freed = trie.info.freed ∧
    (∀ k, trie'.root.contentAt k = if k = key
      then (true,some ⟨trie.info.allocated,value.take trie.info.dataSize⟩) else trie.root.contentAt k) ∧
    ∃ created : ℕ, trie'.info.nNodes = trie.info.nNodes + created ∧
      ∀ weight, trie'.root.total weight + weight (trie.root.contentAt key).1 =
        trie.root.total weight + created * weight false + weight true := by
  obtain ⟨created,root',hhelper,-,hmap⟩ := trieInsertHelper_spec value hop.1 h.alphabet_eq hop.2 h.wellFormed
  change trieInsert trie key value = _ at hrun
  rw [trieInsert,hhelper] at hrun
  cases hrun
  exact ⟨rfl,rfl,rfl,hmap,trieInsertHelper_total h.alphabet_eq hop.1 hhelper⟩

/-- A successful removal, field by field. -/
lemma trieRemove_eq_ok {trie trie' : Trie alphabet.length} {key : List UInt8} (h : trie.Valid)
    (hrun : (TrieOp.remove key).apply trie = .ok trie') :
    RemovalCounted trie.info trie.root key trie'.info trie'.root ∧
    ∀ k, trie'.root.contentAt k = if k = key then (false,none) else trie.root.contentAt k := by
  obtain ⟨info',root',delete,hhelper,hremoved⟩ := trieRemoveHelper_spec key h.alphabet_eq h.wellFormed
  change trieRemove trie key = _ at hrun
  rw [trieRemove,hhelper] at hrun
  cases hrun
  exact ⟨trieRemoveHelper_counted h.alphabet_eq h.wellFormed hhelper,hremoved.contentAt⟩

end Histories

section Reachable
variable {node m t : TrieNode alphabet.length}

lemma reaches_of_descend {key : List UInt8} (h : node.descend key = some m) : node.Reaches m := by
  induction key generalizing node with
  | nil =>
    obtain rfl := Option.some.inj h
    exact .refl
  | cons c key ih =>
    obtain ⟨t,hchild,hrest⟩ := Option.bind_eq_some_iff.mp h
    obtain ⟨i,-,ht⟩ := Option.bind_eq_some_iff.mp hchild
    exact .head ⟨i,ht⟩ (ih hrest)

/-- A stored key leads to a node with the flag. -/
lemma exists_word {key : List UInt8} (h : node.Stores key) : ∃ w, node.Reaches w ∧ w.endOfWord = true := by
  rw [Stores,contentAt] at h
  cases hm : node.descend key with
  | none =>
    rw [hm] at h
    cases h
  | some w =>
    rw [hm] at h
    exact ⟨w,reaches_of_descend hm,h⟩

namespace TrieNode.WellFormed

lemma reaches (h : node.WellFormed) (hr : node.Reaches m) : m.WellFormed := by
  induction hr with
  | refl => exact h
  | tail _ hlink ih =>
    obtain ⟨i,ht⟩ := hlink
    exact ih.child ht

/-- In a well formed trie the nodes are those to which words lead. -/
lemma reaches_iff (h : node.WellFormed) : node.Reaches m ↔ ∃ key, node.descend key = some m := by
  constructor
  · intro hr
    induction hr using Relation.ReflTransGen.head_induction_on with
    | refl => exact ⟨[],rfl⟩
    | @head a b hlink _ ih =>
      obtain ⟨i,hb⟩ := hlink
      obtain ⟨key,hkey⟩ := ih (h.child hb)
      cases h with
      | intro _ _ letters =>
        obtain ⟨c,hc⟩ := letters i b hb
        exact ⟨c :: key,by simp [descend,hc,hb,hkey]⟩
  · rintro ⟨key,hkey⟩
    exact reaches_of_descend hkey

end TrieNode.WellFormed

lemma TrieNode.nodeCount_pos {n : ℕ} (node : TrieNode n) : 1 ≤ node.nodeCount := by
  rw [nodeCount,total_eq]
  omega

/-- The structural invariant of a trie. Since `n_Nodes` and the counters of the nodes are only stepped down
by one at a time, they never pass below zero on the way to the values that they have here. -/
structure Trie.Structured {n : ℕ} (trie : Trie n) : Prop where
  nNodes_eq : trie.info.nNodes = trie.root.nodeCount
  nChildren_eq {m : TrieNode n} : trie.root.Reaches m → m.nChildren = childCount m.children
  value_iff {m : TrieNode n} : trie.root.Reaches m → (m.value ≠ none ↔ m.endOfWord = true)
  live {m t : TrieNode n} : trie.root.Reaches m → m.Link t → ∃ w, t.Reaches w ∧ w.endOfWord = true
  nNodes_pos : 0 < trie.info.nNodes
  nChildren_nonneg {m : TrieNode n} : trie.root.Reaches m → 0 ≤ m.nChildren

lemma Trie.Valid.structured {trie : Trie alphabet.length} (h : trie.Valid)
    (hnodes : trie.info.nNodes = trie.root.nodeCount) : trie.Structured where
  nNodes_eq := hnodes
  nChildren_eq hr := (h.wellFormed.reaches hr).nChildren_eq
  value_iff {m} hr := by
    rw [← (h.wellFormed.reaches hr).value_isSome,← Option.isSome_iff_ne_none]
  live hr hlink := by
    obtain ⟨i,ht⟩ := hlink
    obtain ⟨key,hkey⟩ := (h.wellFormed.reaches hr).child_live ht
    exact exists_word hkey
  nNodes_pos := by
    have := trie.root.nodeCount_pos
    omega
  nChildren_nonneg hr := by
    rw [(h.wellFormed.reaches hr).nChildren_eq]
    exact Int.natCast_nonneg _

end Reachable

section Histories
variable {dataSize : ℕ} {ops : List TrieOp} (hops : ∀ op ∈ ops, op.Proper alphabet dataSize)
include hops

/-- After every history `n_Nodes` is the number of nodes. -/
lemma trieAfter_nNodes : ∃ trie, trieAfter dataSize alphabet ops = .ok trie ∧ trie.Valid ∧
    (∀ k, trie.Holds k ↔ k ∈ keysAfter ops) ∧ trie.info.nNodes = trie.root.nodeCount := by
  refine trieAfter_invariant (P := fun _ trie => trie.info.nNodes = trie.root.nodeCount) ?_ ?_ hops
  · rw [nodeCount,trieCreate,total_create]
    rfl
  · intro ops op trie trie' hop hvalid _ hnodes hrun
    cases op with
    | insert key value =>
      obtain ⟨-,-,-,-,created,hcreated,htotal⟩ := trieInsert_eq_ok hvalid hop hrun
      have := htotal fun _ => 1
      rw [nodeCount] at hnodes ⊢
      omega
    | remove key =>
      obtain ⟨deleted,hdeleted,htotal⟩ := (trieRemove_eq_ok hvalid hrun).1.total
      have := htotal fun _ => 1
      rw [nodeCount] at hnodes ⊢
      omega

/-- After every history of insertions and removals of words the trie has its structure: `n_Nodes` counts the
nodes, `n_children` the links of a node, values are where words end, and no branch is dead. -/
theorem trie_structured : ∃ trie, trieAfter dataSize alphabet ops = .ok trie ∧ trie.Structured := by
  obtain ⟨trie,hrun,hvalid,-,hnodes⟩ := trieAfter_nNodes hops
  exact ⟨trie,hrun,hvalid.structured hnodes⟩

omit hops in
/-- A shared prefix, the removal of a word inside another one and of a word that is not there. -/
theorem trie_structured_prefixes : ∃ trie, trieAfter 1 (chars "abc") [.insert (chars "abc") (chars "x"),
    .insert (chars "ab") (chars "y"),.insert (chars "b") (chars "z"),.remove (chars "ab"),.remove (chars "a"),
    .remove (chars "b")] = .ok trie ∧ trie.Structured :=
  trie_structured (by decide +kernel)

end Histories

end ClientServerApp
