import ClientServerApp.Trie.Structure

/-! The shape of a trie is determined by its keys, and so does not depend on its history. -/
namespace ClientServerApp
open Finset TrieNode

variable {alphabet : List UInt8}

namespace TrieNode

/-- The same nodes, links, flags and counters; only the values may differ. -/
inductive SameShape {n : ℕ} : TrieNode n → TrieNode n → Prop
  | intro {a b : TrieNode n} (endOfWord : a.endOfWord = b.endOfWord) (nChildren : a.nChildren = b.nChildren)
      (links : ∀ i, (a.children i).isSome = (b.children i).isSome)
      (children : ∀ i t u, a.children i = some t → b.children i = some u → SameShape t u) : SameShape a b

lemma SameShape.total_eq {n : ℕ} {a b : TrieNode n} (h : a.SameShape b) (weight : Bool → ℕ) :
    a.total weight = b.total weight := by
  induction h with
  | @intro a b endOfWord nChildren links children ih =>
    rw [TrieNode.total_eq,TrieNode.total_eq b,endOfWord]
    congr 1
    apply sum_congr rfl
    intro i _
    have hi := links i
    cases ht : a.children i with
    | none =>
      rw [ht,Option.isSome_none,eq_comm,Option.isSome_eq_false_iff,Option.isNone_iff_eq_none] at hi
      rw [hi]
    | some t =>
      rw [ht,Option.isSome_some,eq_comm,Option.isSome_iff_exists] at hi
      obtain ⟨u,hu⟩ := hi
      rw [hu,linkTotal_some,linkTotal_some,ih i t u ht hu]

/-- A key that starts with the letter of a link is looked up below it. -/
lemma stores_cons {node t : TrieNode alphabet.length} {c : UInt8} {i : Fin alphabet.length}
    (hc : alphabet.finIdxOf? c = some i) (ht : node.children i = some t) (key : List UInt8) :
    node.Stores (c :: key) ↔ t.Stores key := by
  rw [Stores,contentAt_cons hc,ht]
  exact Iff.rfl

/-- A link that leads to a key of one trie is there in every trie with the same keys. -/
lemma WellFormed.link_of_stores {a b : TrieNode alphabet.length} (ha : a.WellFormed)
    (hkeys : ∀ k, a.Stores k → b.Stores k) {i : Fin alphabet.length} (h : (a.children i).isSome) :
    (b.children i).isSome := by
  obtain ⟨t,ht⟩ := Option.isSome_iff_exists.mp h
  obtain ⟨key,hkey⟩ := ha.child_live ht
  cases ha with
  | intro _ _ letters =>
    obtain ⟨c,hc⟩ := letters i t ht
    have hstores := hkeys (c :: key) ((stores_cons hc ht key).mpr hkey)
    rw [Stores,contentAt_cons hc] at hstores
    cases hb : b.children i with
    | none =>
      rw [hb] at hstores
      cases hstores
    | some u => rfl

/-- The keys of a well formed trie determine its shape. -/
theorem WellFormed.sameShape {a b : TrieNode alphabet.length} (ha : a.WellFormed) (hb : b.WellFormed)
    (hkeys : ∀ k, a.Stores k ↔ b.Stores k) : a.SameShape b := by
  induction ha generalizing b with
  | @intro a children live letters count value ih =>
    have ha : a.WellFormed := .intro children live letters count value
    have hlinks : ∀ i, (a.children i).isSome = (b.children i).isSome := fun i => Bool.eq_iff_iff.mpr
      ⟨ha.link_of_stores fun k => (hkeys k).mp,hb.link_of_stores fun k => (hkeys k).mpr⟩
    refine .intro (Bool.eq_iff_iff.mpr (hkeys [])) ?_ hlinks ?_
    · rw [count,hb.nChildren_eq,childCount,childCount]
      congr 2
      apply filter_congr
      intro i _
      rw [hlinks]
    · intro i t u ht hu
      obtain ⟨c,hc⟩ := letters i t ht
      refine ih i t ht (hb.child hu) fun k => ?_
      rw [← stores_cons hc ht,hkeys,stores_cons hc hu]

section Size

end Size

end TrieNode

/-- The same shape of the nodes and the same `n_Nodes`. -/
structure Trie.SameShape {n : ℕ} (trie trie' : Trie n) : Prop where
  root : trie.root.SameShape trie'.root
  nNodes_eq : trie.info.nNodes = trie'.info.nNodes

section Shapes
variable {dataSize : ℕ}

/-- Two histories that leave the same keys leave the same shape. -/
lemma trieAfter_sameShape {ops₁ ops₂ : List TrieOp} (h₁ : ∀ op ∈ ops₁, op.Proper alphabet dataSize)
    (h₂ : ∀ op ∈ ops₂, op.Proper alphabet dataSize) :
    ∃ trie₁ trie₂, trieAfter dataSize alphabet ops₁ = .ok trie₁ ∧ trieAfter dataSize alphabet ops₂ = .ok trie₂ ∧
      (∀ k, trie₁.Holds k ↔ k ∈ keysAfter ops₁) ∧ (∀ k, trie₂.Holds k ↔ k ∈ keysAfter ops₂) ∧
      ((∀ k, trie₁.Holds k ↔ trie₂.Holds k) → trie₁.SameShape trie₂) := by
  obtain ⟨trie₁,hrun₁,hvalid₁,hkeys₁,hnodes₁⟩ := trieAfter_nNodes h₁
  obtain ⟨trie₂,hrun₂,hvalid₂,hkeys₂,hnodes₂⟩ := trieAfter_nNodes h₂
  refine ⟨trie₁,trie₂,hrun₁,hrun₂,hkeys₁,hkeys₂,fun hkeys => ?_⟩
  have hroot := hvalid₁.wellFormed.sameShape hvalid₂.wellFormed hkeys
  refine ⟨hroot,?_⟩
  rw [hnodes₁,hnodes₂,nodeCount,nodeCount,hroot.total_eq]

lemma sameShape_of_keysAfter {ops₁ ops₂ : List TrieOp} (h₁ : ∀ op ∈ ops₁, op.Proper alphabet dataSize)
    (h₂ : ∀ op ∈ ops₂, op.Proper alphabet dataSize) (hkeys : keysAfter ops₁ = keysAfter ops₂) :
    ∃ trie₁ trie₂, trieAfter dataSize alphabet ops₁ = .ok trie₁ ∧ trieAfter dataSize alphabet ops₂ = .ok trie₂ ∧
      trie₁.SameShape trie₂ := by
  obtain ⟨trie₁,trie₂,hrun₁,hrun₂,hkeys₁,hkeys₂,hshape⟩ := trieAfter_sameShape h₁ h₂
  refine ⟨trie₁,trie₂,hrun₁,hrun₂,hshape fun k => ?_⟩
  rw [hkeys₁,hkeys₂,hkeys]

lemma keysAfter_pair (ops : List TrieOp) (a b : TrieOp) :
    keysAfter (ops ++ [a,b]) = b.update (a.update (keysAfter ops)) := by
  rw [keysAfter,List.foldl_append]
  rfl

/-- Calls on different keys change the keys independently. -/
lemma TrieOp.update_comm (keys : Finset (List UInt8)) {a b : TrieOp} (h : a.key ≠ b.key) :
    b.update (a.update keys) = a.update (b.update keys) := by
  cases a with
  | insert k v =>
    cases b with
    | insert l w => exact Finset.insert_comm l k keys
    | remove l => exact erase_insert_of_ne h
  | remove k =>
    cases b with
    | insert l w => exact (erase_insert_of_ne h.symm).symm
    | remove l => exact erase_right_comm

lemma proper_append {ops more : List TrieOp} (hops : ∀ op ∈ ops, op.Proper alphabet dataSize)
    (hmore : ∀ op ∈ more, op.Proper alphabet dataSize) : ∀ op ∈ ops ++ more, op.Proper alphabet dataSize :=
  fun op hop => (List.mem_append.mp hop).elim (hops op) (hmore op)

/-- The shape of a trie does not depend on its history: two histories that leave the same keys leave the same
shape, the removal of a word that was inserted just before restores the shape, and two calls on different words
can be exchanged. -/
theorem trie_shape_of_keys {ops : List TrieOp} (hops : ∀ op ∈ ops, op.Proper alphabet dataSize) :
    ∃ trie, trieAfter dataSize alphabet ops = .ok trie ∧
      (∀ ops', (∀ op ∈ ops', op.Proper alphabet dataSize) → ∃ trie', trieAfter dataSize alphabet ops' = .ok trie' ∧
        ((∀ k, trie.Holds k ↔ trie'.Holds k) → trie.SameShape trie')) ∧
      (∀ key value, (TrieOp.insert key value).Proper alphabet dataSize → ¬ trie.Holds key →
        ∃ trie', trieAfter dataSize alphabet (ops ++ [.insert key value,.remove key]) = .ok trie' ∧
          trie.SameShape trie') ∧
      (∀ a b : TrieOp, a.Proper alphabet dataSize → b.Proper alphabet dataSize → a.key ≠ b.key →
        ∃ trie₁ trie₂, trieAfter dataSize alphabet (ops ++ [a,b]) = .ok trie₁ ∧
          trieAfter dataSize alphabet (ops ++ [b,a]) = .ok trie₂ ∧ trie₁.SameShape trie₂) := by
  obtain ⟨trie,hrun,-,hkeys⟩ := trieAfter_spec hops
  refine ⟨trie,hrun,?_,?_,?_⟩
  · intro ops' hops'
    obtain ⟨trie₁,trie',hrun₁,hrun',-,-,hshape⟩ := trieAfter_sameShape hops hops'
    obtain rfl := Except.ok.inj (hrun.symm.trans hrun₁)
    exact ⟨trie',hrun',hshape⟩
  · intro key value hop hfresh
    have hmore : ∀ op ∈ [TrieOp.insert key value,.remove key], op.Proper alphabet dataSize := by
      intro op hmem
      rcases List.mem_pair.mp hmem with rfl | rfl
      · exact hop
      · exact hop.1
    have hrestored : keysAfter ops = keysAfter (ops ++ [.insert key value,.remove key]) := by
      rw [keysAfter_pair]
      exact (erase_insert fun hmem => hfresh ((hkeys key).mpr hmem)).symm
    obtain ⟨trie₁,trie',hrun₁,hrun',hshape⟩ := sameShape_of_keysAfter hops (proper_append hops hmore) hrestored
    obtain rfl := Except.ok.inj (hrun.symm.trans hrun₁)
    exact ⟨trie',hrun',hshape⟩
  · intro a b ha hb hne
    have hpair : ∀ c d : TrieOp, c.Proper alphabet dataSize → d.Proper alphabet dataSize →
        ∀ op ∈ ops ++ [c,d], op.Proper alphabet dataSize := by
      intro c d hc hd
      refine proper_append hops fun op hmem => ?_
      rcases List.mem_pair.mp hmem with rfl | rfl
      · exact hc
      · exact hd
    apply sameShape_of_keysAfter (hpair a b ha hb) (hpair b a hb ha)
    rw [keysAfter_pair,keysAfter_pair,TrieOp.update_comm _ hne]

/-- One word inserted before and after a word inside it is removed. -/
theorem trie_shape_of_prefix : ∃ trie₁ trie₂,
    trieAfter 1 (chars "ab") ([.insert (chars "a") (chars "x")] ++
      [.insert (chars "ab") (chars "y"),.remove (chars "a")]) = .ok trie₁ ∧
    trieAfter 1 (chars "ab") ([.insert (chars "a") (chars "x")] ++
      [.remove (chars "a"),.insert (chars "ab") (chars "y")]) = .ok trie₂ ∧ trie₁.SameShape trie₂ := by
  have hops : ∀ op ∈ [TrieOp.insert (chars "a") (chars "x")], op.Proper (chars "ab") 1 := by decide +kernel
  obtain ⟨trie,-,-,-,hcomm⟩ := trie_shape_of_keys hops
  exact hcomm _ _ (by decide +kernel) (by decide +kernel) (by decide +kernel)

end Shapes

end ClientServerApp
