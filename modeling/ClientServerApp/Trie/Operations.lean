import ClientServerApp.Trie.Keys

/-! What insertion, removal and search do to the map of a well formed trie. -/
namespace ClientServerApp
open TrieNode

variable {alphabet : List UInt8}

namespace TrieNode.WellFormed
variable {node : TrieNode alphabet.length}

lemma exists_key (h : node.WellFormed) (hn : node.nChildren ≠ 0) : ∃ key, node.Stores key := by
  have hc : childCount node.children ≠ 0 := by
    intro h0
    exact hn (by rw [h.nChildren_eq,h0]; rfl)
  rw [Ne,childCount_eq_zero] at hc
  push Not at hc
  obtain ⟨i,hi⟩ := hc
  obtain ⟨t,ht⟩ := Option.ne_none_iff_exists'.mp hi
  obtain ⟨key,hkey⟩ := h.child_live ht
  cases h with
  | intro _ _ letters =>
    obtain ⟨c,hc⟩ := letters i t ht
    refine ⟨c :: key,?_⟩
    rw [Stores,contentAt_cons hc,ht]
    exact hkey

lemma contentAt_dead (h : node.WellFormed) (hn : node.nChildren = 0) (he : node.endOfWord = false)
    (key : List UInt8) : node.contentAt key = (false,none) := by
  cases key with
  | nil =>
    have hv := h.value_isSome
    rw [he,Option.isSome_eq_false_iff,Option.isNone_iff_eq_none] at hv
    rw [contentAt_nil,he,hv]
  | cons c key =>
    by_cases hc : c ∈ alphabet
    · obtain ⟨i,hi⟩ := exists_slot hc
      have h0 : childCount node.children = 0 := by
        have := h.nChildren_eq
        omega
      rw [contentAt_cons hi,childCount_eq_zero.mp h0 i]
      rfl
    · exact contentAt_cons_foreign node hc key

end TrieNode.WellFormed

section Replaced
variable {node : TrieNode alphabet.length} {key : List UInt8} {content : Bool × Option ValueBuffer}

lemma contentAt_unchanged (h : node.contentAt key = content) (k : List UInt8) :
    node.contentAt k = if k = key then content else node.contentAt k := by
  split_ifs with hk
  · rw [hk,h]
  · rfl

/-- When a key is rebound below one letter, it is rebound below the node. -/
lemma contentAt_replaced {c : UInt8} {i : Fin alphabet.length} (hi : alphabet.finIdxOf? c = some i)
    {t : Option (TrieNode alphabet.length)} (count : ℤ)
    (hmap : ∀ k, (t.elim (false,none) fun m => m.contentAt k) =
      if k = key then content else (node.children i).elim (false,none) fun m => m.contentAt k) (k : List UInt8) :
    contentAt { node with children := Function.update node.children i t, nChildren := count } k =
      if k = c :: key then content else node.contentAt k := by
  cases k with
  | nil => rfl
  | cons d k =>
    rw [contentAt_update node hi]
    by_cases hd : d = c
    · subst d
      rw [if_pos rfl,hmap,contentAt_cons hi]
      simp only [List.cons.injEq,true_and]
    · simp [hd]

end Replaced

section Search
variable {info : TrieInfo} (ha : info.alphabet = alphabet)
include ha

/-- The search reads the map when the key is a word over the alphabet. -/
theorem trieSearchHelper_eq {node : TrieNode alphabet.length} (h : node.WellFormed)
    {key : List UInt8} (hkey : ∀ c ∈ key, c ∈ alphabet) :
    trieSearchHelper info node key = .ok (node.contentAt key).2 := by
  induction key generalizing node with
  | nil =>
    have hv := h.value_isSome
    rw [trieSearchHelper,contentAt_nil]
    cases he : node.endOfWord with
    | true => rfl
    | false =>
      rw [he,Option.isSome_eq_false_iff,Option.isNone_iff_eq_none] at hv
      simp [hv]
  | cons c key ih =>
    obtain ⟨i,hi⟩ := exists_slot (hkey c (by simp))
    rw [trieSearchHelper,ha,getIndex_of_slot hi,child_fin,contentAt_cons hi]
    cases ht : node.children i with
    | none => rfl
    | some t => exact ih (h.child ht) (fun d hd => hkey d (by simp [hd]))

end Search

section Steps
variable {info info' : TrieInfo} {node t t' : TrieNode alphabet.length} {c : UInt8}
  {key value : List UInt8} {i : Fin alphabet.length} {delete : Bool}
  (hidx : getIndexFromAlphabet info.alphabet c = ((i : ℕ) : ℤ))
include hidx

lemma trieInsertHelper_link (ht : node.children i = some t)
    (hrun : trieInsertHelper info t key value = .ok (info',t')) :
    trieInsertHelper info node (c :: key) value = .ok (info',node.setChild i (some t')) := by
  have hne : ((i : ℕ) : ℤ) ≠ -1 := by omega
  rw [trieInsertHelper,hidx,if_neg hne,child_fin,ht]
  change (trieInsertHelper info t key value >>= _) = _
  rw [hrun]
  rfl

lemma trieInsertHelper_new (ht : node.children i = none)
    (hrun : trieInsertHelper { info with nNodes := info.nNodes+1 } trieNodeCreate key value =
      .ok (info',t')) :
    trieInsertHelper info node (c :: key) value =
      .ok (info',{ node with nChildren := node.nChildren+1 }.setChild i (some t')) := by
  have hne : ((i : ℕ) : ℤ) ≠ -1 := by omega
  rw [trieInsertHelper,hidx,if_neg hne,child_fin,ht]
  change (trieInsertHelper { info with nNodes := info.nNodes+1 } trieNodeCreate key value >>= _) = _
  rw [hrun]
  rfl

lemma trieRemoveHelper_missing (ht : node.children i = none) :
    trieRemoveHelper info node (c :: key) = .ok (info,node,false) := by
  have hne : ((i : ℕ) : ℤ) ≠ -1 := by omega
  rw [trieRemoveHelper,hidx,if_neg hne,child_fin,ht]
  rfl

lemma trieRemoveHelper_delete (ht : node.children i = some t)
    (hrun : trieRemoveHelper info t key = .ok (info',t',true)) :
    trieRemoveHelper info node (c :: key) =
      .ok ({ trieNodeFree info' t' with nNodes := info'.nNodes-1 },
        { node.setChild i none with nChildren := node.nChildren-1 },
        node.nChildren-1 == 0 && !node.endOfWord) := by
  have hne : ((i : ℕ) : ℤ) ≠ -1 := by omega
  rw [trieRemoveHelper,hidx,if_neg hne,child_fin,ht]
  change (trieRemoveHelper info t key >>= _) = _
  rw [hrun]
  rfl

lemma trieRemoveHelper_keep (ht : node.children i = some t)
    (hrun : trieRemoveHelper info t key = .ok (info',t',false)) :
    trieRemoveHelper info node (c :: key) =
      .ok (info',node.setChild i (some t'),node.nChildren == 0 && !node.endOfWord) := by
  have hne : ((i : ℕ) : ℤ) ≠ -1 := by omega
  rw [trieRemoveHelper,hidx,if_neg hne,child_fin,ht]
  change (trieRemoveHelper info t key >>= _) = _
  rw [hrun]
  rfl

end Steps

/-- Inserting a word over the alphabet binds it to the copied value and changes nothing else. -/
theorem trieInsertHelper_spec (value : List UInt8) {key : List UInt8}
    (hkey : ∀ c ∈ key, c ∈ alphabet) {info : TrieInfo} (ha : info.alphabet = alphabet)
    (hv : info.dataSize ≤ value.length) {node : TrieNode alphabet.length} (h : node.WellFormed) :
    ∃ created : ℤ, ∃ node' : TrieNode alphabet.length,
      trieInsertHelper info node key value =
        .ok ({ info with size := info.size+1, allocated := info.allocated+1,
                         nNodes := info.nNodes+created },node') ∧
      node'.WellFormed ∧
      ∀ k, node'.contentAt k =
        if k = key then (true,some ⟨info.allocated,value.take info.dataSize⟩) else node.contentAt k := by
  induction key generalizing info node with
  | nil =>
    refine ⟨0,{ node with value := some ⟨info.allocated,value.take info.dataSize⟩, endOfWord := true },?_,?_,?_⟩
    · rw [trieInsertHelper,if_neg (by omega)]
      simp
    · cases h with
      | intro children live letters count _ => exact .intro children live letters count rfl
    · intro k
      cases k <;> rfl
  | cons c key ih =>
    obtain ⟨i,hi⟩ := exists_slot (hkey c (by simp))
    have hrest : ∀ d ∈ key, d ∈ alphabet := fun d hd => hkey d (by simp [hd])
    have hidx : getIndexFromAlphabet info.alphabet c = ((i : ℕ) : ℤ) := by rw [ha,getIndex_of_slot hi]
    cases ht : node.children i with
    | some t =>
      obtain ⟨created,t',hrun,ht',hmap⟩ := ih hrest ha hv (h.child ht)
      have hlive : ∃ k, t'.Stores k := ⟨key,by rw [Stores,hmap,if_pos rfl]⟩
      have hcount : node.nChildren = (childCount (Function.update node.children i (some t')) : ℤ) := by
        rw [childCount_update_same t' (by simp [ht]),h.nChildren_eq]
      refine ⟨created,_,?_,h.update hi (o := some t') (by rintro _ ⟨⟩; exact ⟨ht',hlive⟩) hcount,?_⟩
      · rw [trieInsertHelper_link hidx ht hrun,setChild_fin]
      · refine contentAt_replaced hi _ fun k => ?_
        rw [Option.elim_some,hmap,ht,Option.elim_some]
    | none =>
      obtain ⟨created,t',hrun,ht',hmap⟩ :=
        @ih hrest { info with nNodes := info.nNodes+1 } ha hv _ wellFormed_create
      have hlive : ∃ k, t'.Stores k := ⟨key,by rw [Stores,hmap,if_pos rfl]⟩
      have hcount : node.nChildren + 1 = (childCount (Function.update node.children i (some t')) : ℤ) := by
        rw [childCount_update_new t' ht,h.nChildren_eq]
        push_cast
        rfl
      refine ⟨1+created,_,?_,h.update hi (o := some t') (by rintro _ ⟨⟩; exact ⟨ht',hlive⟩) hcount,?_⟩
      · rw [trieInsertHelper_new hidx ht hrun,setChild_fin]
        simp [add_assoc]
      · refine contentAt_replaced hi _ fun k => ?_
        rw [Option.elim_some,hmap,ht,Option.elim_none,contentAt_create]

/-- Inserting a key with a foreign letter stops the program. -/
theorem trieInsertHelper_foreign (value : List UInt8) {key : List UInt8} (hkey : ¬ ∀ c ∈ key, c ∈ alphabet)
    {info : TrieInfo} (ha : info.alphabet = alphabet) (node : TrieNode alphabet.length) :
    trieInsertHelper info node key value = .error (.die "Current letter from key is not in alphabet") := by
  induction key generalizing info node with
  | nil => simp at hkey
  | cons c key ih =>
    by_cases hc : c ∈ alphabet
    · obtain ⟨i,hi⟩ := exists_slot hc
      have hidx : getIndexFromAlphabet info.alphabet c = ((i : ℕ) : ℤ) := by rw [ha,getIndex_of_slot hi]
      have hne : ((i : ℕ) : ℤ) ≠ -1 := by omega
      have hrest : ¬ ∀ d ∈ key, d ∈ alphabet := by simpa [hc] using hkey
      rw [trieInsertHelper,hidx,if_neg hne,child_fin]
      cases ht : node.children i with
      | some t =>
        change (trieInsertHelper info t key value >>= _) = _
        rw [ih hrest ha t]
        rfl
      | none =>
        change (trieInsertHelper { info with nNodes := info.nNodes+1 } trieNodeCreate key value >>= _) = _
        rw [@ih hrest { info with nNodes := info.nNodes+1 } ha trieNodeCreate]
        rfl
    · rw [trieInsertHelper,ha,getIndex_foreign hc,if_pos rfl]

/-- The flag a node returns after a removal below it tells whether it is dead. -/
lemma WellFormed.flag {node : TrieNode alphabet.length} (h : node.WellFormed) :
    ((node.nChildren == 0 && !node.endOfWord) = true → node.nChildren = 0 ∧ node.endOfWord = false) ∧
    ((node.nChildren == 0 && !node.endOfWord) = false → ∃ k, node.Stores k) := by
  refine ⟨by simp,fun hf => ?_⟩
  by_cases hn : node.nChildren = 0
  · exact ⟨[],by simpa [hn,Stores] using hf⟩
  · exact h.exists_key hn

/-- What a removal that came back from a node has done: the key is unbound and nothing else changed. A
node that asks for its deletion is dead; another one keeps a key if it had one. -/
structure Removed (info : TrieInfo) (node : TrieNode alphabet.length) (key : List UInt8) (info' : TrieInfo)
    (node' : TrieNode alphabet.length) (delete : Bool) : Prop where
  wellFormed : node'.WellFormed
  alphabet_eq : info'.alphabet = alphabet
  dataSize_eq : info'.dataSize = info.dataSize
  contentAt (k : List UInt8) : node'.contentAt k = if k = key then (false,none) else node.contentAt k
  dead : delete = true → node'.nChildren = 0 ∧ node'.endOfWord = false
  live : delete = false → (∃ k, node.Stores k) → ∃ k, node'.Stores k

namespace Removed
variable {info info' : TrieInfo} {node t t' : TrieNode alphabet.length} {key : List UInt8} {c : UInt8}
  {i : Fin alphabet.length}

/-- A key that leads nowhere leaves everything as it is. -/
lemma absent (ha : info.alphabet = alphabet) (h : node.WellFormed) (hkey : node.contentAt key = (false,none)) :
    Removed info node key info node false where
  wellFormed := h
  alphabet_eq := ha
  dataSize_eq := rfl
  contentAt := contentAt_unchanged hkey
  dead := by simp
  live := fun _ hstores => hstores

variable (h : node.WellFormed) (hi : alphabet.finIdxOf? c = some i) (ht : node.children i = some t)
include h hi ht

lemma delete (hr : Removed info t key info' t' true) : Removed info node (c :: key)
    { trieNodeFree info' t' with nNodes := info'.nNodes-1 }
    { node with children := Function.update node.children i none, nChildren := node.nChildren-1 }
    (node.nChildren-1 == 0 && !node.endOfWord) := by
  obtain ⟨hn,he⟩ := hr.dead rfl
  have hcount : node.nChildren - 1 = (childCount (Function.update node.children i none) : ℤ) := by
    have hlost : childCount (Function.update node.children i none) + 1 = childCount node.children :=
      childCount_update_none (by simp [ht])
    have := h.nChildren_eq
    omega
  have hwf := h.update hi (o := none) (by simp) hcount
  have hflag := WellFormed.flag hwf
  refine ⟨hwf,hr.alphabet_eq,hr.dataSize_eq,contentAt_replaced hi _ fun k => ?_,hflag.1,fun hf _ => hflag.2 hf⟩
  rw [Option.elim_none,ht,Option.elim_some,← hr.contentAt,hr.wellFormed.contentAt_dead hn he]

lemma keep (hr : Removed info t key info' t' false) : Removed info node (c :: key) info'
    { node with children := Function.update node.children i (some t') }
    (node.nChildren == 0 && !node.endOfWord) := by
  have hlive := hr.live rfl (h.child_live ht)
  have hcount : node.nChildren = (childCount (Function.update node.children i (some t')) : ℤ) := by
    rw [childCount_update_same t' (by simp [ht]),h.nChildren_eq]
  have hwf := h.update hi (o := some t') (by rintro _ ⟨⟩; exact ⟨hr.wellFormed,hlive⟩) hcount
  have hflag := WellFormed.flag hwf
  refine ⟨hwf,hr.alphabet_eq,hr.dataSize_eq,contentAt_replaced hi _ fun k => ?_,hflag.1,fun hf _ => hflag.2 hf⟩
  rw [Option.elim_some,hr.contentAt,ht,Option.elim_some]

end Removed

/-- Removal unbinds the key, also one that is absent or no word, and changes nothing else. -/
theorem trieRemoveHelper_spec (key : List UInt8) {info : TrieInfo} (ha : info.alphabet = alphabet)
    {node : TrieNode alphabet.length} (h : node.WellFormed) :
    ∃ (info' : TrieInfo) (node' : TrieNode alphabet.length) (delete : Bool),
      trieRemoveHelper info node key = .ok (info',node',delete) ∧ Removed info node key info' node' delete := by
  induction key generalizing info node with
  | nil =>
    cases he : node.endOfWord with
    | true =>
      have hwf : WellFormed { node with endOfWord := false, value := none } := by
        cases h with
        | intro children live letters count _ => exact .intro children live letters count rfl
      refine ⟨_,_,_,if_pos he,hwf,ha,rfl,?_,?_,?_⟩
      · intro k
        cases k <;> rfl
      · intro hd
        exact ⟨by simpa using hd,rfl⟩
      · intro hd _
        exact hwf.exists_key (by simpa using hd)
    | false =>
      have hv := h.value_isSome
      rw [he,Option.isSome_eq_false_iff,Option.isNone_iff_eq_none] at hv
      refine ⟨info,node,node.nChildren == 0,?_,h,ha,rfl,contentAt_unchanged ?_,?_,fun _ hk => hk⟩
      · rw [trieRemoveHelper,if_neg (by simp [he])]
      · rw [contentAt_nil,he,hv]
      · intro hd
        exact ⟨by simpa using hd,he⟩
  | cons c key ih =>
    by_cases hc : c ∈ alphabet
    · obtain ⟨i,hi⟩ := exists_slot hc
      have hidx : getIndexFromAlphabet info.alphabet c = ((i : ℕ) : ℤ) := by rw [ha,getIndex_of_slot hi]
      cases ht : node.children i with
      | none =>
        refine ⟨info,node,false,trieRemoveHelper_missing hidx ht,.absent ha h ?_⟩
        rw [contentAt_cons hi,ht]
        rfl
      | some t =>
        obtain ⟨info',t',delete,hrun,hr⟩ := ih ha (h.child ht)
        cases delete with
        | true =>
          refine ⟨_,_,_,trieRemoveHelper_delete hidx ht hrun,?_⟩
          rw [setChild_fin]
          exact hr.delete h hi ht
        | false =>
          refine ⟨_,_,_,trieRemoveHelper_keep hidx ht hrun,?_⟩
          rw [setChild_fin]
          exact hr.keep h hi ht
    · have hidx : getIndexFromAlphabet info.alphabet c = -1 := by rw [ha,getIndex_foreign hc]
      refine ⟨info,node,false,?_,.absent ha h (contentAt_cons_foreign node hc key)⟩
      rw [trieRemoveHelper,hidx,if_pos rfl]

end ClientServerApp
