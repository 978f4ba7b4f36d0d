import ClientServerApp.Trie.Counter

/-! What `trie_free` gives back after a history: every value buffer that the trie still has, once, and so all buffers
but those that an insertion of a stored key has lost. -/
namespace ClientServerApp
open Finset TrieNode
open Buffers (Distinct)

variable {alphabet : List UInt8}

namespace TrieNode
variable {n : ℕ}

mutual

/-- The value buffers of the nodes reached from a node, in the order in which they are freed. -/
def buffers : TrieNode n → List ℕ
  | ⟨value,_,children,_⟩ => (List.finRange n).flatMap (fun i => linkBuffers (children i)) ++
      value.toList.map ValueBuffer.allocation

def linkBuffers : Option (TrieNode n) → List ℕ
  | none => []
  | some t => buffers t

end

lemma buffers_eq (node : TrieNode n) : node.buffers =
    (List.finRange n).flatMap (fun i => linkBuffers (node.children i)) ++
      node.value.toList.map ValueBuffer.allocation := by
  cases node
  rw [buffers]

lemma trieNodeAndChildrenFree_eq (trie : TrieInfo) (node : TrieNode n) : trieNodeAndChildrenFree trie node =
    trieNodeFree ((List.finRange n).foldl (fun trie i => childFree trie (node.children i)) trie) node := by
  cases node
  rw [trieNodeAndChildrenFree]

namespace WellFormed
variable {node t : TrieNode alphabet.length} {i : Fin alphabet.length}

/-- `trie_free` passes exactly the buffers of the nodes to `free_value`. -/
theorem free_eq (h : node.WellFormed) (trie : TrieInfo) :
    trieNodeAndChildrenFree trie node = { trie with freed := node.buffers.reverse ++ trie.freed } := by
  induction h generalizing trie with
  | @intro node _ _ _ _ _ ih =>
    have hchild (trie : TrieInfo) (i : Fin alphabet.length) : childFree trie (node.children i) =
        { trie with freed := (linkBuffers (node.children i)).reverse ++ trie.freed } := by
      cases ht : node.children i with
      | none => rw [childFree,linkBuffers]; rfl
      | some t => rw [childFree,linkBuffers,ih i t ht]
    have hloop (is : List (Fin alphabet.length)) (trie : TrieInfo) :
        is.foldl (fun trie i => childFree trie (node.children i)) trie =
          { trie with freed := (is.flatMap fun i => linkBuffers (node.children i)).reverse ++ trie.freed } := by
      induction is generalizing trie with
      | nil => rfl
      | cons i is ih =>
        rw [List.foldl_cons,hchild,ih,List.flatMap_cons,List.reverse_append,List.append_assoc]
    rw [trieNodeAndChildrenFree_eq,hloop,buffers_eq,trieNodeFree,TrieInfo.freeValue]
    cases node.value with
    | none => simp
    | some buffer => simp

lemma bufferAt_child (ht : node.children i = some t) {c : UInt8} (hc : alphabet.finIdxOf? c = some i)
    (key : List UInt8) : node.bufferAt (c :: key) = t.bufferAt key := by
  rw [bufferAt,bufferAt,contentAt_cons hc,ht,Option.elim_some]

lemma mem_linkBuffers {a : ℕ} :
    a ∈ linkBuffers (node.children i) ↔ ∃ t, node.children i = some t ∧ a ∈ t.buffers := by
  cases node.children i with
  | none => simp [linkBuffers]
  | some t => simp [linkBuffers]

lemma mem_own {a : ℕ} : a ∈ node.value.toList.map ValueBuffer.allocation ↔ node.bufferAt [] = some a := by
  rw [bufferAt,contentAt_nil]
  simp [Option.mem_toList]

/-- The buffers of the nodes are those found at the keys. -/
lemma mem_buffers (h : node.WellFormed) (a : ℕ) : a ∈ node.buffers ↔ ∃ key, node.bufferAt key = some a := by
  induction h with
  | @intro node _ _ letters _ _ ih =>
    rw [buffers_eq,List.mem_append,List.mem_flatMap,mem_own]
    simp only [List.mem_finRange,true_and,mem_linkBuffers]
    constructor
    · rintro (⟨i,t,ht,ha⟩ | ha)
      · obtain ⟨c,hc⟩ := letters i t ht
        obtain ⟨key,hkey⟩ := (ih i t ht).mp ha
        exact ⟨c :: key,(bufferAt_child ht hc key).trans hkey⟩
      · exact ⟨[],ha⟩
    · rintro ⟨key,hkey⟩
      cases key with
      | nil => exact .inr hkey
      | cons c key =>
        by_cases hm : c ∈ alphabet
        · obtain ⟨i,hi⟩ := exists_slot hm
          cases ht : node.children i with
          | none =>
            rw [bufferAt,contentAt_cons hi,ht] at hkey
            cases hkey
          | some t =>
            rw [bufferAt_child ht hi] at hkey
            exact .inl ⟨i,t,ht,(ih i t ht).mpr ⟨key,hkey⟩⟩
        · rw [bufferAt,contentAt_cons_foreign _ hm] at hkey
          cases hkey

/-- When no two keys have the same buffer, no buffer is freed twice. -/
lemma nodup_buffers (h : node.WellFormed)
    (hunique : ∀ {k l a}, node.bufferAt k = some a → node.bufferAt l = some a → k = l) : node.buffers.Nodup := by
  induction h with
  | @intro node children _ letters _ _ ih =>
    -- the keys of the buffers below a child start with its letter
    have hkeys : ∀ {i a}, a ∈ linkBuffers (node.children i) → ∃ c key,
        alphabet.finIdxOf? c = some i ∧ node.bufferAt (c :: key) = some a := by
      intro i a ha
      obtain ⟨t,ht,ha⟩ := mem_linkBuffers.mp ha
      obtain ⟨c,hc⟩ := letters i t ht
      obtain ⟨key,hkey⟩ := ((children i t ht).mem_buffers a).mp ha
      exact ⟨c,key,hc,(bufferAt_child ht hc key).trans hkey⟩
    rw [buffers_eq]
    refine List.nodup_append.mpr ⟨List.nodup_flatMap.mpr ⟨fun i _ => ?_,?_⟩,?_,?_⟩
    · cases ht : node.children i with
      | none =>
        rw [linkBuffers]
        exact List.nodup_nil
      | some t =>
        rw [linkBuffers]
        obtain ⟨c,hc⟩ := letters i t ht
        refine ih i t ht fun {k l a} hk hl => ?_
        rw [← bufferAt_child ht hc] at hk hl
        exact (List.cons.inj (hunique hk hl)).2
    · refine (List.nodup_finRange _).imp fun {i j} hij a hi hj => hij ?_
      obtain ⟨c,key,hc,hkey⟩ := hkeys hi
      obtain ⟨d,key',hd,hkey'⟩ := hkeys hj
      obtain rfl := (List.cons.inj (hunique hkey hkey')).1
      exact Option.some.inj (hc.symm.trans hd)
    · cases node.value with
      | none => exact List.nodup_nil
      | some buffer => exact List.nodup_singleton _
    · rintro a ha _ hown rfl
      obtain ⟨i,-,hi⟩ := List.mem_flatMap.mp ha
      obtain ⟨c,key,-,hkey⟩ := hkeys hi
      cases hunique hkey (mem_own.mp hown)

/-- There is a buffer for each word. -/
lemma length_buffers (h : node.WellFormed) : node.buffers.length = node.wordCount := by
  induction h with
  | @intro node _ _ _ _ value ih =>
    have hlink (i : Fin alphabet.length) :
        (linkBuffers (node.children i)).length = linkTotal Bool.toNat (node.children i) := by
      cases ht : node.children i with
      | none => rw [linkBuffers,linkTotal]; rfl
      | some t => rw [linkBuffers,linkTotal,ih i t ht,wordCount]
    have hown : (node.value.toList.map ValueBuffer.allocation).length = node.endOfWord.toNat := by
      rw [← value]
      cases node.value <;> rfl
    rw [buffers_eq,wordCount,total_eq,List.length_append,hown,List.length_flatMap,Fin.sum_univ_def,add_comm]
    congr 2
    exact List.map_congr_left fun i _ => hlink i

end WellFormed

end TrieNode

section Histories

/-- Whether the call puts a key that is stored already. -/
def TrieOp.overwrites (keys : Finset (List UInt8)) : TrieOp → ℕ
  | .insert key _ => if key ∈ keys then 1 else 0
  | .remove _ => 0

/-- How many insertions of a history put a key that is stored at that time. -/
def overwrites : Finset (List UInt8) → List TrieOp → ℕ
  | _,[] => 0
  | keys,op :: ops => op.overwrites keys + overwrites (op.update keys) ops

lemma overwrites_concat (keys : Finset (List UInt8)) (ops : List TrieOp) (op : TrieOp) :
    overwrites keys (ops ++ [op]) = overwrites keys ops + op.overwrites (ops.foldl TrieOp.update keys) := by
  induction ops generalizing keys with
  | nil => simp [overwrites]
  | cons o ops ih => rw [List.cons_append,overwrites,overwrites,ih,List.foldl_cons,add_assoc]

def TrieOp.isInsert : TrieOp → Bool
  | .insert _ _ => true
  | .remove _ => false

/-- What a history keeps of the value buffers, lost ones included. -/
structure Trie.Balanced (ops : List TrieOp) (trie : Trie alphabet.length) : Prop where
  distinct : Distinct trie.root.bufferAt trie.info.allocated trie.info.freed
  inserts : trie.info.allocated = ops.countP TrieOp.isInsert
  balance : trie.info.freed.length + trie.root.wordCount + overwrites ∅ ops = trie.info.allocated

namespace Trie.Balanced
variable {ops : List TrieOp} {trie trie' : Trie alphabet.length}

lemma create (dataSize : ℕ) : Balanced [] (trieCreate dataSize alphabet.length alphabet) where
  distinct := by
    have hnone : (trieCreate dataSize alphabet.length alphabet).root.bufferAt = fun _ => none := by
      funext key
      rw [bufferAt,trieCreate,contentAt_create]
      rfl
    rw [hnone]
    exact .empty
  inserts := rfl
  balance := by
    rw [wordCount,trieCreate,total_create]
    rfl

variable (h : Balanced ops trie) (hvalid : trie.Valid) (hkeys : ∀ k, trie.Holds k ↔ k ∈ keysAfter ops)
include h hvalid

include hkeys in
lemma insert {key value : List UInt8} (hop : (TrieOp.insert key value).Proper alphabet trie.info.dataSize)
    (hrun : (TrieOp.insert key value).apply trie = .ok trie') : Balanced (ops ++ [.insert key value]) trie' := by
  obtain ⟨-,hallocated,hfreed,hmap,created,-,htotal⟩ := trieInsert_eq_ok hvalid hop hrun
  have hwords : trie'.root.wordCount + (trie.root.contentAt key).1.toNat = trie.root.wordCount + 1 := by
    simpa [wordCount] using htotal Bool.toNat
  have hflag : (TrieOp.insert key value).overwrites (keysAfter ops) = (trie.root.contentAt key).1.toNat := by
    rw [TrieOp.overwrites]
    split_ifs with hmem
    · rw [(hkeys key).mpr hmem]
      rfl
    · rw [hvalid.flag_of_not_holds (mt (hkeys key).mp hmem)]
      rfl
  refine ⟨?_,?_,?_⟩
  · rw [Trie.bufferAt_update hmap,hallocated,hfreed]
    exact h.distinct.allocate key
  · rw [hallocated,h.inserts,List.countP_append]
    rfl
  · have hbalance := h.balance
    rw [overwrites_concat,hallocated,hfreed]
    change _ + (_ + (TrieOp.insert key value).overwrites (keysAfter ops)) = _
    omega

lemma remove {key : List UInt8} (hrun : (TrieOp.remove key).apply trie = .ok trie') :
    Balanced (ops ++ [.remove key]) trie' := by
  obtain ⟨⟨-,hallocated,hfreed,deleted,-,htotal⟩,hmap⟩ := trieRemove_eq_ok hvalid hrun
  have hwords : trie'.root.wordCount + (trie.root.contentAt key).1.toNat = trie.root.wordCount := by
    simpa [wordCount] using htotal Bool.toNat
  have howned : (trie.root.contentAt key).2.toList.map ValueBuffer.allocation = (trie.root.bufferAt key).toList := by
    rw [bufferAt]
    cases (trie.root.contentAt key).2 <;> rfl
  have hlength : (trie.root.bufferAt key).toList.length = (trie.root.contentAt key).1.toNat := by
    rw [← hvalid.wellFormed.contentAt_isSome,bufferAt]
    cases (trie.root.contentAt key).2 <;> rfl
  refine ⟨?_,?_,?_⟩
  · rw [Trie.bufferAt_update hmap,hallocated,hfreed,howned]
    exact h.distinct.free key
  · rw [hallocated,h.inserts,List.countP_append]
    rfl
  · have hbalance := h.balance
    rw [overwrites_concat,hallocated,hfreed,howned,List.length_append,hlength]
    change _ + (_ + 0) = _
    omega

end Trie.Balanced

/-- After any insertions and removals of words `trie_free` passes just the buffers of the values that the trie still
has to `free_value`, none of them freed before and none twice, so that all buffers are freed but one for each
insertion of a key that was stored already. -/
theorem trie_free_balance {dataSize : ℕ} {ops : List TrieOp} (hops : ∀ op ∈ ops, op.Proper alphabet dataSize) :
    ∃ trie buffers, trieAfter dataSize alphabet ops = .ok trie ∧
      (trieFree trie).freed = buffers ++ trie.info.freed ∧
      (∀ a, a ∈ buffers ↔ ∃ key, trie.root.bufferAt key = some a) ∧ (trieFree trie).freed.Nodup ∧
      (∀ a ∈ (trieFree trie).freed, a < ops.countP TrieOp.isInsert) ∧
      (trieFree trie).freed.length + overwrites ∅ ops = ops.countP TrieOp.isInsert := by
  obtain ⟨trie,hrun,hvalid,-,h⟩ :=
    trieAfter_invariant (Trie.Balanced.create dataSize) (fun ops op trie trie' hop hvalid hkeys h hrun => by
      cases op with
      | insert key value => exact h.insert hvalid hkeys hop hrun
      | remove key => exact h.remove hvalid hrun) hops
  have hwell := hvalid.wellFormed
  have hmem (a : ℕ) : a ∈ trie.root.buffers.reverse ↔ ∃ key, trie.root.bufferAt key = some a := by
    rw [List.mem_reverse,hwell.mem_buffers]
  have hfreed : (trieFree trie).freed = trie.root.buffers.reverse ++ trie.info.freed := by
    rw [trieFree,hwell.free_eq]
  refine ⟨trie,trie.root.buffers.reverse,hrun,hfreed,hmem,?_,fun a ha => ?_,?_⟩
  · rw [hfreed]
    refine List.nodup_append.mpr ⟨?_,h.distinct.nodup,?_⟩
    · exact List.nodup_reverse.mpr (hwell.nodup_buffers fun hk hl => h.distinct.unique hk hl)
    · rintro a ha _ hold rfl
      obtain ⟨key,hkey⟩ := (hmem a).mp ha
      exact (h.distinct.live hkey).2 hold
  · rw [hfreed] at ha
    rw [← h.inserts]
    obtain ha | ha := List.mem_append.mp ha
    · obtain ⟨key,hkey⟩ := (hmem a).mp ha
      exact (h.distinct.live hkey).1
    · exact h.distinct.old ha
  · have hbalance := h.balance
    rw [hfreed,List.length_append,List.length_reverse,hwell.length_buffers,← h.inserts]
    omega

/-- One key is stored twice, so one buffer of three is lost: that of `a` is freed when it is removed, and `trie_free`
frees that of `ab`. -/
theorem trie_free_balance_twice : ∃ trie buffers, trieAfter 1 (chars "ab") [.insert (chars "a") (chars "x"),
    .insert (chars "a") (chars "y"),.insert (chars "ab") (chars "z"),.remove (chars "a")] = .ok trie ∧
    (trieFree trie).freed = buffers ++ trie.info.freed ∧
    (∀ a, a ∈ buffers ↔ ∃ key, trie.root.bufferAt key = some a) ∧ (trieFree trie).freed.length = 2 := by
  obtain ⟨trie,buffers,hrun,hfreed,hbuffers,-,-,hlength⟩ := @trie_free_balance (chars "ab") 1
    [.insert (chars "a") (chars "x"),.insert (chars "a") (chars "y"),.insert (chars "ab") (chars "z"),
      .remove (chars "a")] (by decide +kernel)
  have hlost : overwrites ∅ [.insert (chars "a") (chars "x"),.insert (chars "a") (chars "y"),
      .insert (chars "ab") (chars "z"),.remove (chars "a")] = 1 := by decide +kernel
  rw [hlost] at hlength
  exact ⟨trie,buffers,hrun,hfreed,hbuffers,Nat.succ.inj hlength⟩

end Histories

end ClientServerApp
