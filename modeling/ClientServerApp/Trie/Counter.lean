import ClientServerApp.Library.Buffers
import ClientServerApp.Trie.Structure

/-! The counter of keys and the value buffers of a trie over its histories. -/
namespace ClientServerApp
open Finset TrieNode
open Buffers (Accounted)

variable {alphabet : List UInt8}

/-- The buffer of the value at the end of a key, by the number of its allocation. -/
def TrieNode.bufferAt (node : TrieNode alphabet.length) (key : List UInt8) : Option ℕ :=
  (node.contentAt key).2.map ValueBuffer.allocation

/-- The buffer is the value of a node of the trie. -/
def Trie.Keeps {n : ℕ} (trie : Trie n) (a : ℕ) : Prop :=
  ∃ m buffer, trie.root.Reaches m ∧ m.value = some buffer ∧ buffer.allocation = a

/-- `size` is the number of the keys and of the nodes that end a word, and every buffer allocated so far is
either the value of a node or has been freed once. -/
structure Trie.NoDrift (trie : Trie alphabet.length) : Prop where
  size_keys : ∃ keys : Finset (List UInt8), (∀ k, trie.Holds k ↔ k ∈ keys) ∧ trie.info.size = keys.card
  size_words : trie.info.size = trie.root.wordCount
  buffers (a : ℕ) : a < trie.info.allocated →
    trie.Keeps a ∧ a ∉ trie.info.freed ∨ ¬ trie.Keeps a ∧ trie.info.freed.count a = 1

/-- An insertion is of a key that is not stored. -/
def TrieOp.Fresh (keys : Finset (List UInt8)) : TrieOp → Prop
  | .insert key _ => key ∉ keys
  | .remove _ => True

/-- Every insertion of the history is of a key that is not stored at that time. -/
def InsertsFresh (ops : List TrieOp) : Prop := ∀ pre op, pre ++ [op] <+: ops → op.Fresh (keysAfter pre)

lemma insertsFresh_nil : InsertsFresh [] := fun pre op hpre => absurd (List.prefix_nil.mp hpre) (by simp)

lemma keysAfter_concat (ops : List TrieOp) (op : TrieOp) : keysAfter (ops ++ [op]) = op.update (keysAfter ops) := by
  rw [keysAfter,List.foldl_append]
  rfl

lemma insertsFresh_concat (ops : List TrieOp) (op : TrieOp) :
    InsertsFresh (ops ++ [op]) ↔ InsertsFresh ops ∧ op.Fresh (keysAfter ops) := by
  constructor
  · intro h
    exact ⟨fun pre o hpre => h pre o (hpre.trans (List.prefix_append _ _)),h ops op List.prefix_rfl⟩
  · rintro ⟨hops,hop⟩ pre o hpre
    rcases List.prefix_concat_iff.mp hpre with heq | hpre
    · obtain ⟨rfl,ho⟩ := List.append_inj' heq rfl
      obtain rfl : o = op := by simpa using ho
      exact hop
    · exact hops pre o hpre

namespace Trie.Valid
variable {trie trie' : Trie alphabet.length} (h : trie.Valid)
include h

/-- The buffers of the nodes are those of the keys. -/
lemma keeps_iff (a : ℕ) : trie.Keeps a ↔ ∃ key, trie.root.bufferAt key = some a := by
  constructor
  · rintro ⟨m,buffer,hr,hvalue,rfl⟩
    obtain ⟨key,hkey⟩ := h.wellFormed.reaches_iff.mp hr
    exact ⟨key,by simp [bufferAt,contentAt,hkey,hvalue]⟩
  · rintro ⟨key,hkey⟩
    obtain ⟨buffer,hbuffer,ha⟩ := Option.map_eq_some_iff.mp hkey
    cases hm : trie.root.descend key with
    | none => simp [contentAt,hm] at hbuffer
    | some m =>
      rw [contentAt,hm] at hbuffer
      exact ⟨m,buffer,reaches_of_descend hm,hbuffer,ha⟩

lemma flag_of_not_holds {key : List UInt8} (hkey : ¬ trie.Holds key) : trie.root.contentAt key = (false,none) := by
  have hflag : (trie.root.contentAt key).1 = false := Bool.eq_false_iff.mpr hkey
  have hvalue := h.wellFormed.contentAt_isSome key
  rw [hflag,Option.isSome_eq_false_iff,Option.isNone_iff_eq_none] at hvalue
  exact Prod.ext hflag hvalue

end Trie.Valid

/-- A change of what is at one key changes the buffer of this key. -/
lemma Trie.bufferAt_update {trie trie' : Trie alphabet.length} {key : List UInt8}
    {content : Bool × Option ValueBuffer}
    (h : ∀ k, trie'.root.contentAt k = if k = key then content else trie.root.contentAt k) :
    trie'.root.bufferAt = Function.update trie.root.bufferAt key (content.2.map ValueBuffer.allocation) := by
  funext k
  rw [bufferAt,h,Function.update_apply]
  split_ifs
  · rfl
  · rfl

/-- What a history keeps of the counter and of the buffers. The counter never falls below the number of keys,
and it is exact, with the buffers accounted, as long as all insertions are fresh. -/
structure Trie.Drifts (ops : List TrieOp) (trie : Trie alphabet.length) : Prop where
  words : trie.root.wordCount = (keysAfter ops).card
  card_le : ((keysAfter ops).card : ℤ) ≤ trie.info.size
  exact_iff : trie.info.size = (keysAfter ops).card ↔ InsertsFresh ops
  accounted : InsertsFresh ops → Accounted trie.root.bufferAt trie.info.allocated trie.info.freed

namespace Trie.Drifts
variable {ops : List TrieOp} {trie trie' : Trie alphabet.length}

lemma create (dataSize : ℕ) : Drifts [] (trieCreate dataSize alphabet.length alphabet) where
  words := by rw [wordCount,trieCreate,total_create]; rfl
  card_le := le_refl _
  exact_iff := ⟨fun _ => insertsFresh_nil,fun _ => rfl⟩
  accounted _ := by
    have hnone : (trieCreate dataSize alphabet.length alphabet).root.bufferAt = fun _ => none := by
      funext key
      rw [bufferAt,trieCreate,contentAt_create]
      rfl
    rw [hnone]
    exact .empty

variable (h : Drifts ops trie) (hvalid : trie.Valid) (hkeys : ∀ k, trie.Holds k ↔ k ∈ keysAfter ops)
include h hvalid hkeys

lemma insert {key value : List UInt8} (hop : (TrieOp.insert key value).Proper alphabet trie.info.dataSize)
    (hrun : (TrieOp.insert key value).apply trie = .ok trie') : Drifts (ops ++ [.insert key value]) trie' := by
  obtain ⟨hsize,hallocated,hfreed,hmap,created,-,htotal⟩ := trieInsert_eq_ok hvalid hop hrun
  have hwords : trie'.root.wordCount + (trie.root.contentAt key).1.toNat = trie.root.wordCount + 1 := by
    simpa [wordCount] using htotal Bool.toNat
  have hcard : (keysAfter (ops ++ [.insert key value])).card + (trie.root.contentAt key).1.toNat =
      (keysAfter ops).card + 1 := by
    rw [keysAfter_concat]
    change (Insert.insert key (keysAfter ops)).card + _ = _
    by_cases hmem : key ∈ keysAfter ops
    · rw [insert_eq_of_mem hmem,(hkeys key).mpr hmem]
      rfl
    · rw [card_insert_of_notMem hmem,hvalid.flag_of_not_holds (mt (hkeys key).mp hmem)]
      rfl
  have hfresh : (TrieOp.insert key value).Fresh (keysAfter ops) ↔ (trie.root.contentAt key).1.toNat = 0 := by
    change key ∉ keysAfter ops ↔ _
    rw [← hkeys,Bool.toNat_eq_zero,← Bool.not_eq_true]
    exact Iff.rfl
  have hflag := Bool.toNat_le (trie.root.contentAt key).1
  have hle := h.card_le
  have hprevious := h.words
  refine ⟨by omega,by omega,?_,fun hall => ?_⟩
  · rw [insertsFresh_concat,← h.exact_iff,hfresh]
    omega
  · obtain ⟨hops,hnew⟩ := (insertsFresh_concat _ _).mp hall
    have hnone : trie.root.bufferAt key = none := by
      rw [bufferAt,hvalid.flag_of_not_holds (mt (hkeys key).mp hnew)]
      rfl
    rw [bufferAt_update hmap,hallocated,hfreed]
    exact (h.accounted hops).allocate hnone

lemma remove {key : List UInt8} (hrun : (TrieOp.remove key).apply trie = .ok trie') :
    Drifts (ops ++ [.remove key]) trie' := by
  obtain ⟨⟨hsize,hallocated,hfreed,deleted,-,htotal⟩,hmap⟩ := trieRemove_eq_ok hvalid hrun
  have hwords : trie'.root.wordCount + (trie.root.contentAt key).1.toNat = trie.root.wordCount := by
    simpa [wordCount] using htotal Bool.toNat
  have hcard : (keysAfter (ops ++ [.remove key])).card + (trie.root.contentAt key).1.toNat =
      (keysAfter ops).card := by
    rw [keysAfter_concat]
    change ((keysAfter ops).erase key).card + _ = _
    by_cases hmem : key ∈ keysAfter ops
    · rw [(hkeys key).mpr hmem]
      exact card_erase_add_one hmem
    · rw [erase_eq_of_notMem hmem,hvalid.flag_of_not_holds (mt (hkeys key).mp hmem)]
      rfl
  have hle := h.card_le
  have hprevious := h.words
  refine ⟨by omega,by omega,?_,fun hall => ?_⟩
  · rw [insertsFresh_concat,← h.exact_iff,and_iff_left (by trivial)]
    omega
  · have hops := ((insertsFresh_concat _ _).mp hall).1
    have howned : (trie.root.contentAt key).2.toList.map ValueBuffer.allocation =
        (trie.root.bufferAt key).toList := by
      rw [bufferAt]
      cases (trie.root.contentAt key).2 <;> rfl
    rw [bufferAt_update hmap,hallocated,hfreed,howned]
    exact (h.accounted hops).free key

omit h in
/-- The counter and the buffers are right exactly when all insertions were fresh. -/
lemma noDrift_iff (h : Drifts ops trie) : trie.NoDrift ↔ InsertsFresh ops := by
  constructor
  · intro hdrift
    obtain ⟨keys,hkeys',hsize⟩ := hdrift.size_keys
    have hsame : keys = keysAfter ops := by
      ext k
      rw [← hkeys',hkeys]
    exact h.exact_iff.mp (hsame ▸ hsize)
  · intro hfresh
    have hsize := h.exact_iff.mpr hfresh
    refine ⟨⟨keysAfter ops,hkeys,hsize⟩,by rw [hsize,h.words],fun a ha => ?_⟩
    rcases (h.accounted hfresh).once a with ⟨howned,-,hcount⟩ | ⟨hfree,hcount⟩
    · exact .inl ⟨(hvalid.keeps_iff a).mpr howned,List.count_eq_zero.mp hcount⟩
    · refine .inr ⟨fun hkeeps => ?_,by rw [hcount,if_pos ha]⟩
      obtain ⟨key,hkey⟩ := (hvalid.keeps_iff a).mp hkeeps
      exact hfree key hkey

end Trie.Drifts

/-- After a history the counter of keys and the value buffers are right if and only if no insertion was of a
key that was stored already. -/
theorem trie_noDrift_iff {dataSize : ℕ} {ops : List TrieOp} (hops : ∀ op ∈ ops, op.Proper alphabet dataSize) :
    ∃ trie, trieAfter dataSize alphabet ops = .ok trie ∧ (trie.NoDrift ↔ InsertsFresh ops) := by
  obtain ⟨trie,hrun,hvalid,hkeys,hdrifts⟩ :=
    trieAfter_invariant (Trie.Drifts.create dataSize) (fun ops op trie trie' hop hvalid hkeys h hrun => by
      cases op with
      | insert key value => exact h.insert hvalid hkeys hop hrun
      | remove key => exact h.remove hvalid hkeys hrun) hops
  exact ⟨trie,hrun,hdrifts.noDrift_iff hvalid hkeys⟩

/-- A word inserted again after its removal, and the removal of a word that is not there. -/
theorem trie_noDrift_again : ∃ trie, trieAfter 1 (chars "ab") [.insert (chars "a") (chars "x"),.remove (chars "a"),
    .insert (chars "a") (chars "y"),.remove (chars "b")] = .ok trie ∧ trie.NoDrift := by
  obtain ⟨trie,hrun,hiff⟩ := @trie_noDrift_iff (chars "ab") 1 [.insert (chars "a") (chars "x"),.remove (chars "a"),
    .insert (chars "a") (chars "y"),.remove (chars "b")] (by decide +kernel)
  have hfirst := (insertsFresh_concat [] (.insert (chars "a") (chars "x"))).mpr ⟨insertsFresh_nil,notMem_empty _⟩
  have hremoved := (insertsFresh_concat _ (.remove (chars "a"))).mpr ⟨hfirst,trivial⟩
  have hsecond := (insertsFresh_concat _ (.insert (chars "a") (chars "y"))).mpr ⟨hremoved,notMem_erase _ _⟩
  exact ⟨trie,hrun,hiff.mpr ((insertsFresh_concat _ (.remove (chars "b"))).mpr ⟨hsecond,trivial⟩)⟩

/-- The same key twice: it is counted twice, and the first buffer is neither kept nor freed. -/
theorem trie_drifts_twice : ∃ trie, trieAfter 1 (chars "a")
    [.insert (chars "a") (chars "x"),.insert (chars "a") (chars "y")] = .ok trie ∧ ¬ trie.NoDrift := by
  have hops : ∀ op ∈ [TrieOp.insert (chars "a") (chars "x"),.insert (chars "a") (chars "y")],
      op.Proper (chars "a") 1 := by decide +kernel
  obtain ⟨trie,hrun,-,hholds⟩ := trieAfter_spec hops
  have hsize : (trieAfter 1 (chars "a") [.insert (chars "a") (chars "x"),.insert (chars "a") (chars "y")]).map
      (fun trie => trie.info.size) = .ok 2 := rfl
  rw [hrun] at hsize
  refine ⟨trie,hrun,fun h => ?_⟩
  obtain ⟨keys,hkeys,hcard⟩ := h.size_keys
  have hone : keys = keysAfter [.insert (chars "a") (chars "x"),.insert (chars "a") (chars "y")] := by
    ext k
    rw [← hkeys,hholds]
  have htwo : trie.info.size = 2 := Except.ok.inj hsize
  rw [hone,htwo] at hcard
  revert hcard
  decide +kernel

end ClientServerApp
