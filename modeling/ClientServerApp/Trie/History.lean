import ClientServerApp.Library.LastWrite
import ClientServerApp.Trie.Operations
import Mathlib.Data.Finset.Basic

/-! Histories of insertions and removals from a created trie, and the set of keys they leave. -/
namespace ClientServerApp
open TrieNode
open LastWrite (Call valueAfter)

variable {alphabet : List UInt8}

/-- The trie works on its alphabet and its nodes have the maintained shape. -/
structure Trie.Valid (trie : Trie alphabet.length) : Prop where
  alphabet_eq : trie.info.alphabet = alphabet
  wellFormed : trie.root.WellFormed

/-- The key is currently in the trie. -/
def Trie.Holds (trie : Trie alphabet.length) (key : List UInt8) : Prop := trie.root.Stores key

lemma trieCreate_valid (dataSize : ℕ) : (trieCreate dataSize alphabet.length alphabet).Valid :=
  ⟨rfl,wellFormed_create⟩

lemma trieCreate_holds (dataSize : ℕ) (key : List UInt8) :
    ¬ (trieCreate dataSize alphabet.length alphabet).Holds key := by
  change ¬ (trieNodeCreate.contentAt key).1 = true
  simp

/-- The bytes that a search for the key finds. -/
def Trie.read (trie : Trie alphabet.length) (key : List UInt8) : Option (List UInt8) :=
  (trie.root.contentAt key).2.map ValueBuffer.bytes

lemma trieCreate_read (dataSize : ℕ) (key : List UInt8) :
    (trieCreate dataSize alphabet.length alphabet).read key = none := by
  rw [Trie.read,trieCreate,contentAt_create]
  rfl

namespace Trie.Valid
variable {trie : Trie alphabet.length} (h : trie.Valid)
include h

lemma read_isSome (key : List UInt8) : (trie.read key).isSome ↔ trie.Holds key := by
  rw [Trie.read,Option.isSome_map,h.wellFormed.contentAt_isSome]
  exact Iff.rfl

theorem insert_read {key value : List UInt8} (hkey : ∀ c ∈ key, c ∈ alphabet)
    (hv : trie.info.dataSize ≤ value.length) :
    ∃ trie', trieInsert trie key value = .ok trie' ∧ trie'.Valid ∧
      trie'.info.dataSize = trie.info.dataSize ∧
      ∀ k, trie'.read k = if key = k then some (value.take trie.info.dataSize) else trie.read k := by
  obtain ⟨created,root',hrun,hroot,hmap⟩ :=
    trieInsertHelper_spec value hkey h.alphabet_eq hv h.wellFormed
  refine ⟨⟨root',{ trie.info with size := trie.info.size+1, allocated := trie.info.allocated+1,
                                  nNodes := trie.info.nNodes+created }⟩,
    ?_,⟨h.alphabet_eq,hroot⟩,rfl,fun k => ?_⟩
  · rw [trieInsert,hrun]
    rfl
  · rw [Trie.read,hmap]
    simp only [@eq_comm _ k key]
    split_ifs <;> rfl

theorem remove_read (key : List UInt8) :
    ∃ trie', trieRemove trie key = .ok trie' ∧ trie'.Valid ∧
      trie'.info.dataSize = trie.info.dataSize ∧
      ∀ k, trie'.read k = if key = k then none else trie.read k := by
  obtain ⟨info',root',delete,hrun,hr⟩ := trieRemoveHelper_spec key h.alphabet_eq h.wellFormed
  refine ⟨⟨root',info'⟩,?_,⟨hr.alphabet_eq,hr.wellFormed⟩,hr.dataSize_eq,fun k => ?_⟩
  · rw [trieRemove,hrun]
    rfl
  · rw [Trie.read,hr.contentAt]
    simp only [@eq_comm _ k key]
    split_ifs <;> rfl

theorem insert {key value : List UInt8} (hkey : ∀ c ∈ key, c ∈ alphabet)
    (hv : trie.info.dataSize ≤ value.length) :
    ∃ trie', trieInsert trie key value = .ok trie' ∧ trie'.Valid ∧
      trie'.info.dataSize = trie.info.dataSize ∧
      ∀ k, trie'.Holds k ↔ k = key ∨ trie.Holds k := by
  obtain ⟨trie',hrun,h',hs,hread⟩ := h.insert_read hkey hv
  refine ⟨trie',hrun,h',hs,fun k => ?_⟩
  rw [← h'.read_isSome,← h.read_isSome,hread]
  split_ifs with hk <;> simp [hk,@eq_comm _ k key]

theorem remove (key : List UInt8) :
    ∃ trie', trieRemove trie key = .ok trie' ∧ trie'.Valid ∧
      trie'.info.dataSize = trie.info.dataSize ∧
      ∀ k, trie'.Holds k ↔ k ≠ key ∧ trie.Holds k := by
  obtain ⟨trie',hrun,h',hs,hread⟩ := h.remove_read key
  refine ⟨trie',hrun,h',hs,fun k => ?_⟩
  rw [← h'.read_isSome,← h.read_isSome,hread]
  split_ifs with hk <;> simp [hk,@eq_comm _ k key]

theorem search_read {key : List UInt8} (hkey : ∀ c ∈ key, c ∈ alphabet) :
    ∃ found, trieSearch trie key = .ok found ∧ found.map ValueBuffer.bytes = trie.read key :=
  ⟨_,trieSearchHelper_eq h.alphabet_eq h.wellFormed hkey,rfl⟩

/-- A search for a word finds a value exactly when the word is in the trie. -/
theorem search {key : List UInt8} (hkey : ∀ c ∈ key, c ∈ alphabet) :
    ∃ found, trieSearch trie key = .ok found ∧ (found.isSome ↔ trie.Holds key) := by
  obtain ⟨found,hrun,hread⟩ := h.search_read hkey
  refine ⟨found,hrun,?_⟩
  rw [← h.read_isSome,← hread,Option.isSome_map]

end Trie.Valid

/-- One call on the trie. -/
inductive TrieOp
  | insert (key value : List UInt8)
  | remove (key : List UInt8)
  deriving DecidableEq, Repr

namespace TrieOp

def apply {n : ℕ} (trie : Trie n) : TrieOp → Outcome (Trie n)
  | .insert key value => trieInsert trie key value
  | .remove key => trieRemove trie key

def key : TrieOp → List UInt8
  | .insert key _ => key
  | .remove key => key

/-- The key is a word over the alphabet, and there are as many value bytes as get copied. -/
def Proper (alphabet : List UInt8) (dataSize : ℕ) : TrieOp → Prop
  | .insert key value => (∀ c ∈ key, c ∈ alphabet) ∧ dataSize ≤ value.length
  | .remove key => ∀ c ∈ key, c ∈ alphabet

instance (alphabet : List UInt8) (dataSize : ℕ) : DecidablePred (Proper alphabet dataSize)
  | .insert key value => inferInstanceAs (Decidable ((∀ c ∈ key, c ∈ alphabet) ∧ dataSize ≤ value.length))
  | .remove key => inferInstanceAs (Decidable (∀ c ∈ key, c ∈ alphabet))

/-- The keys after one more call. -/
def update (keys : Finset (List UInt8)) : TrieOp → Finset (List UInt8)
  | .insert key _ => Insert.insert key keys
  | .remove key => keys.erase key

end TrieOp

/-- The keys whose last call was an insertion. -/
def keysAfter (ops : List TrieOp) : Finset (List UInt8) := ops.foldl TrieOp.update ∅

/-- The trie after a sequence of calls on a created one. -/
def trieAfter (dataSize : ℕ) (alphabet : List UInt8) (ops : List TrieOp) : Outcome (Trie alphabet.length) :=
  ops.foldlM TrieOp.apply (trieCreate dataSize alphabet.length alphabet)

/-- The call as a write to a map: an insertion copies `data_size` bytes. -/
def TrieOp.call (dataSize : ℕ) : TrieOp → Call (List UInt8) (List UInt8)
  | .insert key value => .put key (value.take dataSize)
  | .remove key => .remove key

/-- Every sequence of proper calls succeeds, and the searches read the history. -/
theorem trieAfter_read {dataSize : ℕ} {ops : List TrieOp}
    (hops : ∀ op ∈ ops, op.Proper alphabet dataSize) :
    ∃ trie, trieAfter dataSize alphabet ops = .ok trie ∧ trie.Valid ∧ trie.info.dataSize = dataSize ∧
      ∀ k, trie.read k = valueAfter (· == ·) (ops.map (TrieOp.call dataSize)) k := by
  have hstep : ∀ (trie : Trie alphabet.length) (op : TrieOp), op.Proper alphabet dataSize →
      trie.Valid ∧ trie.info.dataSize = dataSize →
      ∃ trie', op.apply trie = .ok trie' ∧ (trie'.Valid ∧ trie'.info.dataSize = dataSize) ∧
        ∀ k, trie'.read k =
          if ((op.call dataSize).key == k) = true then (op.call dataSize).value else trie.read k := by
    rintro trie op hop ⟨h,hs⟩
    cases op with
    | insert key value =>
      obtain ⟨trie',hrun,h',hs',hread⟩ := h.insert_read hop.1 (hs.trans_le hop.2)
      refine ⟨trie',hrun,⟨h',hs'.trans hs⟩,fun k => ?_⟩
      rw [hread,hs]
      simp only [TrieOp.call,Call.key,Call.value,beq_iff_eq]
    | remove key =>
      obtain ⟨trie',hrun,h',hs',hread⟩ := h.remove_read key
      refine ⟨trie',hrun,⟨h',hs'.trans hs⟩,fun k => ?_⟩
      rw [hread]
      simp only [TrieOp.call,Call.key,Call.value,beq_iff_eq]
  obtain ⟨trie,hrun,⟨h,hs⟩,hread⟩ := LastWrite.foldlM_spec (TrieOp.call dataSize) hstep
    ⟨trieCreate_valid dataSize,rfl⟩ (trieCreate_read dataSize) ops hops
  exact ⟨trie,hrun,h,hs,hread⟩

/-- The keys of a history are those with a value. -/
lemma mem_keysAfter (dataSize : ℕ) (ops : List TrieOp) (k : List UInt8) :
    k ∈ keysAfter ops ↔ (valueAfter (· == ·) (ops.map (TrieOp.call dataSize)) k).isSome := by
  induction ops using List.reverseRecOn with
  | nil => simp [keysAfter]
  | append_singleton ops op ih =>
    rw [keysAfter,List.foldl_append,List.map_append]
    change k ∈ op.update (keysAfter ops) ↔ (valueAfter _ (_ ++ [op.call dataSize]) k).isSome
    rw [LastWrite.valueAfter_concat]
    cases op with
    | insert key value =>
      simp only [TrieOp.update,TrieOp.call,Call.key,Call.value,Finset.mem_insert,ih,beq_iff_eq]
      split_ifs with hk <;> simp [hk,@eq_comm _ k key]
    | remove key =>
      simp only [TrieOp.update,TrieOp.call,Call.key,Call.value,Finset.mem_erase,ih,beq_iff_eq]
      split_ifs with hk <;> simp [hk,@eq_comm _ k key]

/-- Every sequence of proper calls succeeds and leaves exactly the keys of the history. -/
theorem trieAfter_spec {dataSize : ℕ} {ops : List TrieOp}
    (hops : ∀ op ∈ ops, op.Proper alphabet dataSize) :
    ∃ trie, trieAfter dataSize alphabet ops = .ok trie ∧ trie.Valid ∧
      ∀ k, trie.Holds k ↔ k ∈ keysAfter ops := by
  obtain ⟨trie,hrun,h,-,hread⟩ := trieAfter_read hops
  refine ⟨trie,hrun,h,fun k => ?_⟩
  rw [mem_keysAfter dataSize,← hread,h.read_isSome]

/-- The last call with the key. -/
def lastOn (ops : List TrieOp) (k : List UInt8) : Option TrieOp := (ops.filter fun op => op.key == k).getLast?

lemma lastCall_map_call (dataSize : ℕ) (ops : List TrieOp) (k : List UInt8) :
    LastWrite.lastCall (· == ·) (ops.map (TrieOp.call dataSize)) k = (lastOn ops k).map (TrieOp.call dataSize) := by
  have hkey : (fun c : Call (List UInt8) (List UInt8) => c.key == k) ∘ TrieOp.call dataSize =
      fun op => op.key == k := by
    funext op
    cases op <;> rfl
  rw [LastWrite.lastCall,List.filter_map,hkey,List.getLast?_map,lastOn]

/-- A search finds something exactly when the last call with the key was an insertion, and then the bytes
last inserted. -/
theorem read_history {dataSize : ℕ} {ops : List TrieOp} {trie : Trie alphabet.length} {k : List UInt8}
    (hread : trie.read k = valueAfter (· == ·) (ops.map (TrieOp.call dataSize)) k) (bytes : List UInt8) :
    trie.read k = some bytes ↔
      ∃ value, lastOn ops k = some (.insert k value) ∧ bytes = value.take dataSize := by
  rw [hread,valueAfter,lastCall_map_call]
  cases hlast : lastOn ops k with
  | none => simp
  | some op =>
    have hop : (op.key == k) = true := (List.mem_filter.mp (List.mem_of_getLast? hlast)).2
    cases op with
    | insert key value =>
      obtain rfl : key = k := eq_of_beq hop
      simp [TrieOp.call,Call.value,eq_comm]
    | remove key => simp [TrieOp.call,Call.value]

/-- The trie is a finite map: after any calls on a created trie a search for a key succeeds, finds
something exactly when the last call with the key was an insertion, and then the bytes copied by it; removing
another key does not change what it finds. -/
theorem trie_finiteMap {dataSize : ℕ} {ops : List TrieOp} (hops : ∀ op ∈ ops, op.Proper alphabet dataSize)
    {k : List UInt8} (hk : ∀ c ∈ k, c ∈ alphabet) :
    ∃ trie found, trieAfter dataSize alphabet ops = .ok trie ∧ trieSearch trie k = .ok found ∧
      (found.isSome ↔ ∃ value, lastOn ops k = some (.insert k value)) ∧
      (∀ value, lastOn ops k = some (.insert k value) →
        found.map ValueBuffer.bytes = some (value.take dataSize)) ∧
      ∀ key ≠ k, ∃ trie' found', trieRemove trie key = .ok trie' ∧ trieSearch trie' k = .ok found' ∧
        found'.map ValueBuffer.bytes = found.map ValueBuffer.bytes := by
  obtain ⟨trie,hrun,h,-,hread⟩ := trieAfter_read hops
  obtain ⟨found,hsearch,hfound⟩ := h.search_read hk
  have hhistory := read_history (hread k)
  refine ⟨trie,found,hrun,hsearch,?_,?_,?_⟩
  · rw [← Option.isSome_map,hfound,Option.isSome_iff_exists]
    constructor
    · rintro ⟨bytes,hbytes⟩
      obtain ⟨value,hlast,-⟩ := (hhistory bytes).mp hbytes
      exact ⟨value,hlast⟩
    · rintro ⟨value,hlast⟩
      exact ⟨_,(hhistory _).mpr ⟨value,hlast,rfl⟩⟩
  · intro value hlast
    rw [hfound]
    exact (hhistory _).mpr ⟨value,hlast,rfl⟩
  · intro key hne
    obtain ⟨trie',hremove,h',-,hread'⟩ := h.remove_read key
    obtain ⟨found',hsearch',hfound'⟩ := h'.search_read hk
    refine ⟨trie',found',hremove,hsearch',?_⟩
    rw [hfound',hread',if_neg hne,hfound]

/-- A key, a prefix of it that is removed again, and the empty key inserted twice. -/
theorem trie_finiteMap_prefix :
    ∃ trie found, trieAfter 1 (chars "ab") [.insert (chars "ab") (chars "x"),.insert (chars "a") (chars "y"),
        .insert [] (chars "z"),.remove (chars "a"),.insert [] (chars "w")] = .ok trie ∧
      trieSearch trie (chars "ab") = .ok found ∧ found.map ValueBuffer.bytes = some (chars "x") := by
  have hops : ∀ op ∈ [TrieOp.insert (chars "ab") (chars "x"),.insert (chars "a") (chars "y"),
      .insert [] (chars "z"),.remove (chars "a"),.insert [] (chars "w")], op.Proper (chars "ab") 1 := by
    decide +kernel
  obtain ⟨trie,found,hrun,hsearch,-,hbytes,-⟩ := trie_finiteMap hops (show ∀ c ∈ chars "ab",c ∈ chars "ab" by simp)
  exact ⟨trie,found,hrun,hsearch,hbytes (chars "x") (by decide +kernel)⟩

end ClientServerApp
