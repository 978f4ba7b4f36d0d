import ClientServerApp.HashTable.Memory
import ClientServerApp.HashTable.Cost
import ClientServerApp.LinkedList.History
import ClientServerApp.LinkedList.Freeing
import ClientServerApp.Library.Stopping

/-! The hash table with its pointers does what the hash table on sequences does. It touches nothing but its own
nodes, and `ht_free` gives all of them back. -/
namespace ClientServerApp.HashTable
open Chain LinkedList Ownership Stopping

variable {K V : Type}

/-- The table with the sequences of the data. -/
def Ht.onData (ht : Ht K V) (chains : List (List (Addr × K × V))) : ClientServerApp.Ht K V where
  size := ht.size
  hmax := ht.hmax
  buckets := chains.map (List.map Prod.snd)
  hashFunction := ht.hashFunction
  compareFunction := ht.compareFunction

/-- Each bucket is the chain of its nodes, and of the memory around the frame the table owns just these. -/
structure Ht.Represents (frame heap : Memory (K × V)) (ht : Ht K V)
    (chains : List (List (Addr × K × V))) : Prop where
  lists : List.Forall₂ (Ll.Represents heap) ht.buckets chains
  owns : Owns frame heap (chains.flatten.map Prod.fst)
  hmax_pos : 0 < ht.hmax
  length_eq : ht.buckets.length = ht.hmax

section Chains
variable {α : Type} {chains : List (List α)} {nodes : List α} {i : ℕ}

/-- One of the chains first. -/
lemma flatten_perm (h : chains[i]? = some nodes) : chains.flatten.Perm (nodes ++ (chains.eraseIdx i).flatten) := by
  obtain ⟨hi,rfl⟩ := List.getElem?_eq_some_iff.mp h
  exact (List.getElem_cons_eraseIdx_perm hi).symm.flatten

lemma flatten_set_perm' (h : chains[i]? = some nodes) (nodes' : List α) :
    (nodes' ++ (chains.eraseIdx i).flatten).Perm (chains.set i nodes').flatten := by
  obtain ⟨hi,-⟩ := List.getElem?_eq_some_iff.mp h
  have hset : (chains.set i nodes')[i]? = some nodes' := by simp [hi]
  have hperm := flatten_perm hset
  rw [List.eraseIdx_set_eq] at hperm
  exact hperm.symm

end Chains

/-- The loop over the nodes finds what a search of the sequence finds. -/
lemma findNode_eq {heap : Memory (K × V)} {p : Option Addr} {nodes : List (Addr × K × V)} (h : Seg heap p nodes none)
    (isKey : K → Bool) {rounds : ℕ} (hrounds : nodes.length ≤ rounds) (pos : ℕ) :
    ∃ found, findNode heap isKey rounds pos p = .ok found ∧
      found.map Prod.fst = ((nodes.map Prod.snd).findIdx? fun pair => isKey pair.1).map (·+pos) ∧
      found.map Prod.snd = (nodes.map Prod.snd).find? fun pair => isKey pair.1 := by
  induction nodes generalizing p rounds pos with
  | nil =>
    rw [seg_nil.mp h]
    exact ⟨none,by rw [findNode],rfl,rfl⟩
  | cons node nodes ih =>
    obtain ⟨a,pair⟩ := node
    obtain ⟨rfl,next,ha,hrest⟩ := h
    cases rounds with
    | zero => cases hrounds
    | succ rounds =>
      rw [findNode,deref_some _ ha]
      change ∃ found, (if isKey pair.1 then Except.ok (some (pos,pair))
        else findNode heap isKey rounds (pos+1) next) =
        .ok found ∧ _
      rw [List.map_cons,List.findIdx?_cons,List.find?_cons]
      by_cases hkey : isKey pair.1
      · rw [if_pos hkey,if_pos hkey]
        exact ⟨_,rfl,by simp,by simp [hkey]⟩
      · obtain ⟨found,hfind,hpos,hpair⟩ := ih hrest (Nat.le_of_succ_le_succ hrounds) (pos+1)
        rw [if_neg hkey,if_neg hkey]
        refine ⟨found,hfind,?_,?_⟩
        · rw [hpos,Option.map_map]
          congr 1
          funext n
          change n + (pos+1) = n + 1 + pos
          omega
        · simpa [hkey] using hpair

namespace Ht.Represents
variable {frame heap heap' : Memory (K × V)} {ht : Ht K V} {chains : List (List (Addr × K × V))}
  {nodes nodes' : List (Addr × K × V)}

/-- The bucket of a key is there. -/
lemma bucket (h : Represents frame heap ht chains) (key : K) : ∃ list nodes, ht.bucket key = .ok list ∧
    chains[ht.index key]? = some nodes ∧ Ll.Represents heap list nodes ∧
    (ht.onData chains).bucket (ht.index key) = nodes.map Prod.snd := by
  have hi : ht.index key < ht.buckets.length := by
    rw [h.length_eq]
    exact Nat.mod_lt _ h.hmax_pos
  have hi' : ht.index key < chains.length := h.lists.length_eq ▸ hi
  refine ⟨ht.buckets[ht.index key],chains[ht.index key],?_,List.getElem?_eq_getElem hi',h.lists.get hi hi',?_⟩
  · rw [Ht.bucket,List.getElem?_eq_getElem hi,defined_some]
  · change (chains.map (List.map Prod.snd)).getD (ht.index key) [] = _
    rw [List.getD_eq_getElem?_getD,List.getElem?_map,List.getElem?_eq_getElem hi']
    rfl

/-- One bucket gets other nodes, and nothing else in the memory changes. -/
lemma setBucket (h : Represents frame heap ht chains) {i : ℕ} (hnodes : chains[i]? = some nodes) {list' : Ll}
    (hrep : list'.Represents heap' nodes')
    (hkeep : without heap' (nodes'.map Prod.fst) = without heap (nodes.map Prod.fst))
    (size : ℕ) :
    Represents frame heap' { ht with buckets := ht.buckets.set i list', size := size } (chains.set i nodes') := by
  have howns := h.owns.perm ((flatten_perm hnodes).map Prod.fst)
  rw [List.map_append] at howns
  refine ⟨?_,?_,h.hmax_pos,?_⟩
  · obtain ⟨hlength,hget⟩ := List.forall₂_iff_get.mp h.lists
    refine List.forall₂_iff_get.mpr ⟨by rw [List.length_set,List.length_set,hlength],fun j hj hj' => ?_⟩
    rw [List.length_set] at hj hj'
    simp only [List.get_eq_getElem,List.getElem_set]
    split_ifs with hji
    · exact hrep
    · -- the nodes of another bucket
      refine (hget j hj hj').congr fun node hnode => (howns.kept hkeep ?_).2
      refine List.mem_map_of_mem (List.mem_flatten.mpr ⟨_,?_,hnode⟩)
      exact List.mem_eraseIdx_iff_getElem.mpr ⟨j,hj',Ne.symm hji,rfl⟩
  · have howns' := howns.replace hrep.nodup (fun _ => hrep.used) hkeep
    rw [← List.map_append] at howns'
    exact howns'.perm ((flatten_set_perm' hnodes nodes').map Prod.fst)
  · change (ht.buckets.set i list').length = ht.hmax
    rw [List.length_set,h.length_eq]

/-- The search for a key in its bucket. -/
lemma find (h : Represents frame heap ht chains) (key : K) : ∃ list nodes found, ht.bucket key = .ok list ∧
    findNode heap (ht.same · key) list.size 0 list.head = .ok found ∧ chains[ht.index key]? = some nodes ∧
    Ll.Represents heap list nodes ∧ (ht.onData chains).bucket (ht.index key) = nodes.map Prod.snd ∧
    found.map Prod.fst = (nodes.map Prod.snd).findIdx? (fun pair => ht.same pair.1 key) ∧
    found.map Prod.snd = (nodes.map Prod.snd).find? fun pair => ht.same pair.1 key := by
  obtain ⟨list,nodes,hbucket,hnodes,hrep,hdata⟩ := h.bucket key
  obtain ⟨found,hfind,hpos,hpair⟩ := findNode_eq hrep.chain (ht.same · key) hrep.size_eq.ge 0
  refine ⟨list,nodes,found,hbucket,hfind,hnodes,hrep,hdata,hpos.trans ?_,hpair⟩
  exact Option.map_id'

theorem get (h : Represents frame heap ht chains) (key : K) :
    htGet heap ht key = .ok (ClientServerApp.htGet (ht.onData chains) key) := by
  obtain ⟨list,nodes,found,hbucket,hfind,-,-,hdata,-,hpair⟩ := h.find key
  have hget : found.map (fun entry => entry.2.2) = ClientServerApp.htGet (ht.onData chains) key := by
    change _ = (((ht.onData chains).bucket (ht.index key)).find? fun pair => ht.same pair.1 key).map Prod.snd
    rw [hdata,← hpair,Option.map_map]
    rfl
  rw [htGet,hbucket]
  change (findNode heap (ht.same · key) list.size 0 list.head >>= _) = _
  rw [hfind,← hget]
  rfl

theorem hasKey (h : Represents frame heap ht chains) (key : K) :
    htHasKey heap ht key = .ok (ClientServerApp.htHasKey (ht.onData chains) key) := by
  obtain ⟨list,nodes,found,hbucket,hfind,-,-,hdata,-,hpair⟩ := h.find key
  have hhas : found.isSome = ClientServerApp.htHasKey (ht.onData chains) key := by
    rw [htHasKey_eq]
    change _ =
      ((((ht.onData chains).bucket (ht.index key)).find? fun pair => ht.same pair.1 key).map Prod.snd).isSome
    rw [hdata,← hpair,Option.isSome_map,Option.isSome_map]
  rw [htHasKey,hbucket]
  change (findNode heap (ht.same · key) list.size 0 list.head >>= _) = _
  rw [hfind,← hhas]
  rfl

end Ht.Represents

/-- The pointers stand for the table on sequences, around the frame. -/
def Follows (frame : Memory (K × V)) (s : Memory (K × V) × Ht K V) (data : ClientServerApp.Ht K V) : Prop :=
  ∃ chains, s.2.Represents frame s.1 chains ∧ s.2.onData chains = data

/-- The table owns a node for each pair. -/
lemma Follows.owns {frame : Memory (K × V)} {s : Memory (K × V) × Ht K V} {data : ClientServerApp.Ht K V}
    (h : Follows frame s data) (hcounted : data.Counted) : ∃ own, Owns frame s.1 own ∧ own.length = data.size := by
  obtain ⟨chains,hrep,rfl⟩ := h
  refine ⟨_,hrep.owns,?_⟩
  rw [hcounted.size_eq]
  change _ = (chains.map (List.map Prod.snd)).flatten.length
  rw [← List.map_flatten,List.length_map,List.length_map]

/-- The table has room for `left` more pairs below `total`. -/
structure FollowsBelow (frame : Memory (K × V)) (total left : ℕ) (s : Memory (K × V) × Ht K V)
    (data : ClientServerApp.Ht K V) : Prop where
  follows : Follows frame s data
  counted : data.Counted
  room : data.size + left ≤ total

section Calls
variable {frame : Memory (K × V)} {s : Memory (K × V) × Ht K V} {data data' : ClientServerApp.Ht K V}

/-- The node that holds the key is taken out of its list and freed. -/
theorem removeEntry_follows (h : Follows frame s data) (key : K) :
    ∃ s', htRemoveEntry s.1 s.2 key = .ok s' ∧ Follows frame s' (ClientServerApp.htRemoveEntry data key) := by
  obtain ⟨heap,ht⟩ := s
  obtain ⟨chains,hrep,rfl⟩ := h
  obtain ⟨list,nodes,found,hbucket,hfind,hnodes,hlist,hdata,hpos,-⟩ := hrep.find key
  have hbucket' : (ht.onData chains).bucket ((ht.onData chains).index key) = nodes.map Prod.snd := hdata
  have hsame : (ht.onData chains).same = ht.same := rfl
  rw [htRemoveEntry,hbucket,ClientServerApp.htRemoveEntry,hbucket',hsame]
  change ∃ s', (findNode heap (ht.same · key) list.size 0 list.head >>= _) = .ok s' ∧ _
  rw [hfind,← hpos]
  cases found with
  | none => exact ⟨_,rfl,chains,hrep,rfl⟩
  | some entry =>
    obtain ⟨pos,pair⟩ := entry
    have hlt : pos < nodes.length := by
      have hsome := (List.findIdx?_eq_some_iff_getElem.mp hpos.symm).1
      rwa [List.length_map] at hsome
    -- the removed node between the others
    obtain ⟨l₁,⟨b,y⟩,l₂,rfl,rfl⟩ : ∃ l₁ node l₂, nodes = l₁ ++ node :: l₂ ∧ l₁.length = pos := by
      refine ⟨nodes.take pos,nodes[pos],nodes.drop (pos+1),?_,List.length_take_of_le hlt.le⟩
      rw [← List.drop_eq_getElem_cons hlt,List.take_append_drop]
    obtain ⟨heap₁,list',heap',hremove,hfree,hlist',hkeep⟩ := hlist.removeFree
    refine ⟨(heap',{ ht with buckets := ht.buckets.set (ht.index key) list', size := ht.size-1 }),?_,_,
      hrep.setBucket hnodes hlist' hkeep _,?_⟩
    · change (LinkedList.llRemoveNthNode heap list l₁.length >>= _) = _
      rw [hremove]
      change (freeLlNode heap₁ (some b) >>= _) = _
      rw [hfree]
      rfl
    · have hdata' : (l₁ ++ l₂).map Prod.snd =
          ClientServerApp.llRemoveNthNode ((l₁ ++ (b,y) :: l₂).map Prod.snd) l₁.length := by
        rw [List.map_append,List.map_append,List.map_cons,removeNth_eq]
        simp
      simp only [Ht.onData,List.map_set,hdata',Option.map_some]
      rfl

/-- A call of `malloc` returned `NULL` for the nodes then in use: besides the frame, which was as it is, no more than
`limit` of them. -/
def MallocFailed (frame : Memory (K × V)) (malloc : Malloc K V) (limit : ℕ) (e : Stop K V) : Prop :=
  ∃ heap own, e = .die "malloc() failed\n" heap ∧ Owns frame heap own ∧ own.length ≤ limit ∧ malloc heap = none

variable {malloc : Malloc K V} {limit limit' : ℕ}

lemma MallocFailed.mono {e : Stop K V} (h : MallocFailed frame malloc limit e) (hle : limit ≤ limit') :
    MallocFailed frame malloc limit' e := by
  obtain ⟨heap,own,he,howns,hlength,hmalloc⟩ := h
  exact ⟨heap,own,he,howns,hlength.trans hle,hmalloc⟩

/-- The memory that a call finds is the frame of the nodes that it adds. -/
lemma MallocFailed.trans {heap : Memory (K × V)} {own : List Addr} {e : Stop K V} (howns : Owns frame heap own)
    (h : MallocFailed heap malloc limit e) : MallocFailed frame malloc (limit + own.length) e := by
  obtain ⟨heap',own',he,howns',hlength,hmalloc⟩ := h
  refine ⟨heap',own' ++ own,he,howns.trans howns',?_,hmalloc⟩
  rw [List.length_append]
  omega

lemma allocate_unless {heap : Memory (K × V)} {own : List Addr} (howns : Owns frame heap own)
    (hle : own.length ≤ limit) :
    Unless (MallocFailed frame malloc limit) (fun a => malloc heap = some a) (allocate malloc heap) := by
  cases hmalloc : malloc heap with
  | none => exact .error (by rw [allocate,hmalloc]) ⟨heap,own,rfl,howns,hle,hmalloc⟩
  | some a => exact .ok (by rw [allocate,hmalloc]) rfl

/-- An entry with the key is removed, and nothing happens when there is none. -/
lemma removeOld_follows (h : Follows frame s data) (key : K) : ∃ s', removeOld s.1 s.2 key = .ok s' ∧
    Follows frame s' (if ClientServerApp.htHasKey data key then ClientServerApp.htRemoveEntry data key
      else data) := by
  obtain ⟨chains,hrep,rfl⟩ := id h
  rw [removeOld,hrep.hasKey]
  cases ClientServerApp.htHasKey (s.2.onData chains) key with
  | false => exact ⟨s,rfl,h⟩
  | true => exact removeEntry_follows h key

/-- The new pair is put behind the others of its bucket. -/
lemma addPair_follows (h : Follows frame s data) {newNode : Addr} (hnew : s.1 newNode = none) (key : K) (value : V) :
    ∃ s', addPair s.1 s.2 key value newNode = .ok s' ∧ Follows frame s' (data.withBucket (data.index key)
      (ClientServerApp.llAddNthNode (data.bucket (data.index key)) (data.bucket (data.index key)).length (key,value))
      (data.size+1)) := by
  obtain ⟨heap,ht⟩ := s
  obtain ⟨chains,hrep,rfl⟩ := h
  obtain ⟨list,nodes,hbucket,hnodes,hlist,hdata⟩ := hrep.bucket key
  obtain ⟨heap',list',hadd,hlist',hkeep⟩ := hlist.append hnew (key,value)
  refine ⟨(heap',{ ht with buckets := ht.buckets.set (ht.index key) list', size := ht.size+1 }),?_,_,
    hrep.setBucket hnodes hlist' hkeep _,?_⟩
  · rw [addPair,hbucket]
    change (LinkedList.llAddNthNode heap list list.size (some (key,value)) newNode >>= _) = _
    rw [hadd]
    rfl
  · have hbucket' : (ht.onData chains).bucket ((ht.onData chains).index key) = nodes.map Prod.snd := hdata
    rw [hbucket',llAddNthNode_length]
    simp only [Ht.onData,List.map_set,List.map_append]
    rfl

theorem putPair_follows (hmalloc : ∀ heap a, malloc heap = some a → heap a = none) (h : Follows frame s data)
    (hcounted : data.Counted) (key : K) (value : V) : Unless (MallocFailed frame malloc data.size)
      (fun s' => Follows frame s' (ClientServerApp.htPutPair data key value))
      (htPutPair malloc s.1 s.2 key value) := by
  obtain ⟨s₁,hremove,h₁⟩ := removeOld_follows h key
  obtain ⟨own,howns,hle⟩ : ∃ own, Owns frame s₁.1 own ∧ own.length ≤ data.size := by
    obtain ⟨hremoved,hsize,-⟩ := hcounted.removeEntry key
    split_ifs at h₁
    · obtain ⟨own,howns,hlength⟩ := h₁.owns hremoved
      exact ⟨own,howns,hlength.trans_le hsize⟩
    · obtain ⟨own,howns,hlength⟩ := h₁.owns hcounted
      exact ⟨own,howns,hlength.le⟩
  rw [htPutPair,hremove]
  refine (allocate_unless howns hle).bind fun newNode hnew => ?_
  obtain ⟨s₂,hadd,h₂⟩ := addPair_follows h₁ (hmalloc _ _ hnew) key value
  exact .ok (by rw [hadd,lift_ok]) h₂

section Doubling
variable {put : Memory (K × V) → Ht K V → K → V → Except (Stop K V) (Memory (K × V) × Ht K V)}
  {put' : ClientServerApp.Ht K V → K → V → Outcome (ClientServerApp.Ht K V)}

/-- What a call of `put` does when the corresponding call on sequences succeeds. On each of the levels on which it
calls itself no more nodes are in use than the table will have pairs. -/
def PutFollows (malloc : Malloc K V) (levels : ℕ)
    (put : Memory (K × V) → Ht K V → K → V → Except (Stop K V) (Memory (K × V) × Ht K V))
    (put' : ClientServerApp.Ht K V → K → V → Outcome (ClientServerApp.Ht K V)) : Prop :=
  ∀ frame s data key value data', Follows frame s data → data.Counted → put' data key value = .ok data' →
    Unless (MallocFailed frame malloc (levels*(data.size+1))) (fun s' => Follows frame s' data')
      (put s.1 s.2 key value)

/-- A call takes its share of the room. -/
lemma FollowsBelow.afterPut {levels total left : ℕ} (hput : PutFollows malloc levels put put')
    (hcounts : PutCounts put') (h : FollowsBelow frame total (left+1) s data) {key : K} {value : V}
    (hdata : put' data key value = .ok data') :
    Unless (MallocFailed frame malloc (levels*total)) (fun s' => FollowsBelow frame total left s' data')
      (put s.1 s.2 key value) := by
  obtain ⟨hcounted',hsize⟩ := hcounts _ _ _ _ h.counted hdata
  have hroom := h.room
  have hlimit : levels*(data.size+1) ≤ levels*total := Nat.mul_le_mul_left _ (by omega)
  exact (hput frame s data key value data' h.follows h.counted hdata).mono (fun _ he => he.mono hlimit)
    fun _ h' => ⟨h',hcounted',by omega⟩

/-- The nodes of an old list lie in the frame of the new table, so the calls leave them as they are. -/
lemma putNodes_follows {levels total left : ℕ} (hput : PutFollows malloc levels put put') (hcounts : PutCounts put')
    {p : Option Addr} {nodes : List (Addr × K × V)} {rounds : ℕ}
    (hchain : Seg frame p nodes none) (hrounds : nodes.length ≤ rounds)
    (h : FollowsBelow frame total (nodes.length+left) s data)
    (hdata : (nodes.map Prod.snd).foldlM (fun ht pair => put' ht pair.1 pair.2) data = .ok data') :
    Unless (MallocFailed frame malloc (levels*total)) (fun s' => FollowsBelow frame total left s' data')
      (putNodes put rounds s p) := by
  induction nodes generalizing p rounds s data with
  | nil =>
    obtain rfl := Except.ok.inj hdata
    rw [List.length_nil,Nat.zero_add] at h
    rw [seg_nil.mp hchain]
    exact .ok (by rw [putNodes]) h
  | cons node nodes ih =>
    obtain ⟨a,pair⟩ := node
    obtain ⟨rfl,next,ha,hrest⟩ := hchain
    -- the old node in the memory of the new table
    have hread {s : Memory (K × V) × Ht K V} {data : ClientServerApp.Ht K V} (h : Follows frame s data) :
        s.1 a = some ⟨next,pair⟩ := by
      obtain ⟨chains,hrep,-⟩ := h
      rw [hrep.owns.read (by rw [ha]; exact Option.some_ne_none _),ha]
    rw [List.map_cons,List.foldlM_cons] at hdata
    obtain ⟨data₁,hput₁,hrest'⟩ := Outcome.bind_eq_ok.mp hdata
    rw [List.length_cons,Nat.add_right_comm] at h
    cases rounds with
    | zero => cases hrounds
    | succ rounds =>
      rw [putNodes,deref_some _ (hread h.follows)]
      refine (h.afterPut hput hcounts hput₁).bind fun s₁ h₁ => ?_
      change Unless _ _ (lift (deref s₁.1 (some a)) >>= _)
      rw [deref_some _ (hread h₁.follows)]
      exact ih hrest (Nat.le_of_succ_le_succ hrounds) h₁ hrest'

/-- All pairs of the old lists are put into the new table. -/
lemma putLists_follows {levels total : ℕ} (hput : PutFollows malloc levels put put') (hcounts : PutCounts put')
    {lists : List Ll} {chains : List (List (Addr × K × V))}
    (hlists : List.Forall₂ (Ll.Represents frame) lists chains)
    (h : FollowsBelow frame total (chains.map (List.map Prod.snd)).flatten.length s data)
    (hdata : (chains.map (List.map Prod.snd)).foldlM
      (fun ht bucket => bucket.foldlM (fun ht pair => put' ht pair.1 pair.2) ht) data = .ok data') :
    Unless (MallocFailed frame malloc (levels*total)) (fun s' => Follows frame s' data')
      (lists.foldlM (fun s list => putNodes put list.size s list.head) s) := by
  have hbuckets : List.Forall₂ (fun list bucket => ∃ nodes, Ll.Represents frame list nodes ∧
      bucket = nodes.map Prod.snd) lists (chains.map (List.map Prod.snd)) :=
    List.forall₂_map_right_iff.mpr (hlists.imp fun _ nodes hlist => ⟨nodes,hlist,rfl⟩)
  have hstep : ∀ (s : Memory (K × V) × Ht K V) (data : ClientServerApp.Ht K V) (list : Ll) (bucket : List (K × V))
      (rest : List (List (K × V))) (data' : ClientServerApp.Ht K V),
      FollowsBelow frame total (bucket :: rest).flatten.length s data →
      (∃ nodes, Ll.Represents frame list nodes ∧ bucket = nodes.map Prod.snd) →
      bucket.foldlM (fun ht pair => put' ht pair.1 pair.2) data = .ok data' →
      Unless (MallocFailed frame malloc (levels*total))
        (fun s' => FollowsBelow frame total rest.flatten.length s' data') (putNodes put list.size s list.head) := by
    rintro s data list _ rest data' h ⟨nodes,hlist,rfl⟩ hdata
    rw [List.flatten_cons,List.length_append,List.length_map] at h
    exact putNodes_follows hput hcounts hlist.chain hlist.size_eq.ge h hdata
  have hfold := Unless.foldlM (R := fun rest => FollowsBelow frame total rest.flatten.length) hstep hbuckets h hdata
  exact hfold.mono (fun _ he => he) fun _ h' => h'.follows

/-- A table without pairs owns nothing. -/
lemma empty_follows (heap : Memory (K × V)) (ht : Ht K V) (chains : List (List (Addr × K × V))) {hmax : ℕ}
    (hpos : 0 < hmax) :
    Follows heap (heap,{ ht with size := 0, hmax := hmax, buckets := List.replicate hmax llCreate })
      ((ht.onData chains).emptied hmax) := by
  refine ⟨List.replicate hmax [],⟨?_,?_,hpos,List.length_replicate⟩,?_⟩
  · rw [List.forall₂_iff_get]
    refine ⟨by rw [List.length_replicate,List.length_replicate],fun i hi hi' => ?_⟩
    simp only [List.get_eq_getElem,List.getElem_replicate]
    exact ⟨rfl,List.nodup_nil,rfl,nofun⟩
  · rw [List.flatten_replicate_nil]
    exact .nothing heap
  · simp only [Ht.onData,List.map_replicate,List.map_nil]
    rfl

/-- Doubling puts all pairs in new lists around the old ones, and then gives the old ones back. -/
theorem double_follows {levels : ℕ} (hput : PutFollows malloc levels put put') (hcounts : PutCounts put')
    (h : Follows frame s data) (hcounted : data.Counted)
    (hdata : ClientServerApp.htDoubleHmax put' data = .ok data') :
    Unless (MallocFailed frame malloc ((levels+1)*data.size)) (fun s' => Follows frame s' data')
      (htDoubleHmax put s.1 s.2) := by
  obtain ⟨old,hold,hlength⟩ := h.owns hcounted
  obtain ⟨heap,ht⟩ := s
  obtain ⟨chains,hrep,rfl⟩ := h
  have hpos : 0 < 2*ht.hmax := Nat.mul_pos Nat.two_pos hrep.hmax_pos
  have hempty : FollowsBelow heap (ht.onData chains).size (ht.onData chains).buckets.flatten.length
      (heap,{ ht with size := 0, hmax := 2*ht.hmax, buckets := List.replicate (2*ht.hmax) llCreate })
      ((ht.onData chains).emptied (2*ht.hmax)) := by
    refine ⟨empty_follows heap ht chains hpos,.emptied _ hpos,?_⟩
    rw [← hcounted.size_eq]
    exact (Nat.zero_add _).le
  have hfold := putLists_follows hput hcounts hrep.lists hempty hdata
  have hstops : ∀ e, MallocFailed heap malloc (levels*(ht.onData chains).size) e →
      MallocFailed frame malloc ((levels+1)*(ht.onData chains).size) e := by
    intro e he
    rw [Nat.succ_mul]
    have htrans := he.trans hold
    rwa [hlength] at htrans
  refine (hfold.mono hstops fun _ h => h).bind ?_
  rintro ⟨heap',new⟩ ⟨chains',hrep',rfl⟩
  -- the old nodes are still there, and none of the new ones is one of them
  have hlists : List.Forall₂ (Ll.Represents heap') ht.buckets chains := by
    refine forall₂_congr hrep.lists fun node hnode => hrep'.owns.read (hrep.owns.used ?_)
    exact List.mem_map_of_mem hnode
  have howns := hrep.owns.trans hrep'.owns
  have hfree := freeLists_eq hlists hrep.owns.nodup
  have hnew : List.Forall₂ (Ll.Represents (without heap' (chains.flatten.map Prod.fst))) new.buckets chains' := by
    refine forall₂_congr hrep'.lists fun node hnode => without_of_not_mem fun hmem => ?_
    exact (List.nodup_append.mp howns.nodup).2.2 _ (List.mem_map_of_mem hnode) _ hmem rfl
  refine .ok (a := (without heap' (chains.flatten.map Prod.fst),new)) ?_
    ⟨chains',⟨hnew,?_,hrep'.hmax_pos,hrep'.length_eq⟩,rfl⟩
  · change (lift (ht.buckets.foldlM llFree heap') >>= _) = _
    rw [hfree]
    rfl
  · exact (howns.perm List.perm_append_comm).release

end Doubling

/-- `ht_put` with its doublings. -/
theorem put_follows (hmalloc : ∀ heap a, malloc heap = some a → heap a = none) (depth : ℕ) :
    PutFollows malloc depth (htPut malloc depth) (ClientServerApp.htPut depth : ClientServerApp.Ht K V → _) := by
  induction depth with
  | zero =>
    intro frame s data key value data' _ _ hdata
    cases hdata
  | succ depth ih =>
    intro frame s data key value data' h hcounted hdata
    obtain ⟨hcounted',hsize,-⟩ := hcounted.putPair key value
    have hput : data.size ≤ (depth+1)*(data.size+1) := by
      rw [Nat.succ_mul]
      omega
    refine ((putPair_follows hmalloc h hcounted key value).mono (fun _ he => he.mono hput) fun _ h => h).bind
      fun s' hs' => ?_
    obtain ⟨chains,hrep,heq⟩ := id hs'
    rw [ClientServerApp.htPut,← heq] at hdata
    rw [← heq] at hcounted' hsize
    change (if 3*s'.2.hmax ≤ 4*s'.2.size then _ else _) = _ at hdata
    change Unless _ _ (if 3*s'.2.hmax ≤ 4*s'.2.size then htDoubleHmax (htPut malloc depth) s'.1 s'.2 else pure s')
    split_ifs at hdata ⊢ with hfull
    · have hdouble := double_follows ih (Ht.Counted.htPut_counts depth) ⟨chains,hrep,rfl⟩ hcounted' hdata
      exact hdouble.mono (fun _ he => he.mono (Nat.mul_le_mul_left _ hsize)) fun _ h => h
    · obtain rfl := Except.ok.inj hdata
      exact .ok rfl ⟨chains,hrep,rfl⟩

/-- The call stops at a failed `malloc`. -/
def HtCall.MallocFailed (frame : Memory (K × V)) (limit : ℕ) : HtCall K V → Stop K V → Prop
  | .put malloc _ _ => HashTable.MallocFailed frame malloc limit
  | .remove _ => fun _ => False

lemma apply_followsBelow {depth total : ℕ} {call : HtCall K V} {rest : List (LastWrite.Call K V)}
    (hallowed : call.Allowed) (h : FollowsBelow frame total (puts (call.onTable :: rest)) s data)
    (hdata : data.call depth call.onTable = .ok data') :
    Unless (call.MallocFailed frame (depth*total)) (fun s' => FollowsBelow frame total (puts rest) s' data')
      (call.apply depth s) := by
  cases call with
  | put malloc key value =>
    have hone : puts ((HtCall.put malloc key value).onTable :: rest) = puts rest + 1 := List.countP_cons_of_pos rfl
    rw [hone] at h
    exact h.afterPut (put_follows hallowed depth) (Ht.Counted.htPut_counts depth) hdata
  | remove key =>
    have hnone : puts ((HtCall.remove key : HtCall K V).onTable :: rest) = puts rest :=
      List.countP_cons_of_neg Bool.false_ne_true
    obtain rfl := Except.ok.inj hdata
    obtain ⟨s',hremove,h'⟩ := removeEntry_follows h.follows key
    obtain ⟨hcounted',hsize,-⟩ := h.counted.removeEntry key
    have hroom := h.room
    exact .ok (by rw [HtCall.apply,hremove,lift_ok]) ⟨h',hcounted',by omega⟩

end Calls

section History
variable {hashFunction : K → UInt32} {compareFunction : K → K → ℤ} {hmax : ℕ}

open AssocList
open LastWrite (valueAfter)

/-- The calls on sequences succeed and leave a valid table. -/
lemma htAfter_valid (hcompare : KeyEquivalence fun a b => compareFunction a b == 0)
    (hhash : ∀ {a b : K}, compareFunction a b = 0 → hashFunction a = hashFunction b) (hpos : 1 ≤ hmax) (depth : ℕ)
    (calls : List (LastWrite.Call K V)) :
    ∃ data, htAfter (depth+2) hmax hashFunction compareFunction calls = .ok data ∧
      data.Valid ∧ ∀ key, ClientServerApp.htGet data key =
        valueAfter (fun a b => compareFunction a b == 0) calls key := by
  have hcreate : (ClientServerApp.htCreate hmax hashFunction compareFunction : ClientServerApp.Ht K V).ValidFor
      hashFunction compareFunction := ⟨htCreate_valid hpos hcompare hhash,rfl,rfl⟩
  have hstep : ∀ (data : ClientServerApp.Ht K V) (call : LastWrite.Call K V), True →
      data.ValidFor hashFunction compareFunction → ∃ data', data.call (depth+2) call = .ok data' ∧
        data'.ValidFor hashFunction compareFunction ∧ ∀ key, ClientServerApp.htGet data' key =
          if (compareFunction call.key key == 0) = true then call.value else ClientServerApp.htGet data key :=
    fun _ call _ h => h.call depth call
  obtain ⟨data,hrun,hvalid,hget⟩ := @LastWrite.foldlM_spec _ _ _ _ _ (fun a b => compareFunction a b == 0) _ id _ _ _
    hstep _ hcreate (htGet_create hmax hashFunction compareFunction) calls fun _ _ => trivial
  rw [List.map_id] at hget
  exact ⟨data,hrun,hvalid.valid,hget⟩

/-- In any memory, any calls on a created table have defined behaviour and stop only where `malloc` returned `NULL`
for the nodes that were in use just then: with two levels of `ht_put` at most two of the table for each put, the rest
of the memory being as it was. Else the table answers every key as the last call on it says, owns one node a pair and
has left the rest of the memory alone, and `ht_free` gives back the memory as it was. -/
theorem hashTable_memory (hcompare : KeyEquivalence fun a b => compareFunction a b == 0)
    (hhash : ∀ {a b : K}, compareFunction a b = 0 → hashFunction a = hashFunction b) (hpos : 1 ≤ hmax) (depth : ℕ)
    (frame : Memory (K × V)) {calls : List (HtCall K V)} (hallowed : ∀ call ∈ calls, call.Allowed) :
    Unless (fun e => ∃ call ∈ calls, call.MallocFailed frame ((depth+2) * puts (calls.map HtCall.onTable)) e)
      (fun s : Memory (K × V) × Ht K V =>
        (∀ key, htGet s.1 s.2 key =
          .ok (valueAfter (fun a b => compareFunction a b == 0) (calls.map HtCall.onTable) key)) ∧
        (∀ key, htHasKey s.1 s.2 key =
          .ok (valueAfter (fun a b => compareFunction a b == 0) (calls.map HtCall.onTable) key).isSome) ∧
        (∃ own, Owns frame s.1 own ∧ own.length = s.2.size) ∧ htFree s.1 s.2 = .ok frame)
      (calls.foldlM (HtCall.apply (depth+2)) (frame,htCreate hmax hashFunction compareFunction)) := by
  obtain ⟨data,hrun,hvalid,hget⟩ := htAfter_valid hcompare @hhash hpos depth (calls.map HtCall.onTable)
  have hcreate : FollowsBelow frame (puts (calls.map HtCall.onTable)) (puts (calls.map HtCall.onTable))
      (frame,htCreate hmax hashFunction compareFunction)
      (ClientServerApp.htCreate hmax hashFunction compareFunction : ClientServerApp.Ht K V) :=
    ⟨empty_follows frame (htCreate hmax hashFunction compareFunction) [] hpos,
      .emptied (ClientServerApp.htCreate hmax hashFunction compareFunction) hpos,(Nat.zero_add _).le⟩
  have hcalls : List.Forall₂ (fun call c => call ∈ calls ∧ c = call.onTable) calls (calls.map HtCall.onTable) := by
    rw [List.forall₂_map_right_iff,List.forall₂_same]
    exact fun call hcall => ⟨hcall,rfl⟩
  have hstep : ∀ (s : Memory (K × V) × Ht K V) data (call : HtCall K V) c rest data',
      FollowsBelow frame (puts (calls.map HtCall.onTable)) (puts (c :: rest)) s data →
      (call ∈ calls ∧ c = call.onTable) → data.call (depth+2) c = .ok data' →
      Unless (fun e => ∃ call ∈ calls, call.MallocFailed frame ((depth+2) * puts (calls.map HtCall.onTable)) e)
        (fun s' => FollowsBelow frame (puts (calls.map HtCall.onTable)) (puts rest) s' data')
        (call.apply (depth+2) s) := by
    rintro s data call _ rest data' h ⟨hcall,rfl⟩ hdata
    exact (apply_followsBelow (hallowed call hcall) h hdata).mono (fun _ hfail => ⟨call,hcall,hfail⟩) fun _ h => h
  refine (Unless.foldlM (R := fun rest => FollowsBelow frame (puts (calls.map HtCall.onTable)) (puts rest))
    hstep hcalls hcreate hrun).mono (fun _ h => h) ?_
  rintro s ⟨⟨chains,hrep,rfl⟩,-,-⟩
  refine ⟨fun key => ?_,fun key => ?_,⟨_,hrep.owns,?_⟩,?_⟩
  · rw [hrep.get,hget]
  · rw [hrep.hasKey,htHasKey_eq,hget]
  · have hsize : s.2.size = (chains.map (List.map Prod.snd)).flatten.length := hvalid.size_eq
    rw [hsize,← List.map_flatten,List.length_map,List.length_map]
  · rw [htFree,freeLists_eq hrep.lists hrep.owns.nodup,hrep.owns.rest]

section Example

/-- The first address that is not in use, of the first eight. -/
def firstUnused (heap : Memory (UInt32 × ℕ)) : Option Addr := (List.range 8).find? fun a => (heap a).isNone

/-- A node of somebody else. -/
def occupied : Memory (UInt32 × ℕ) := fun a => if a = 1 then some ⟨none,9,9⟩ else none

/-- The table is doubled, and an entry is replaced in it. -/
def exampleCalls : List (HtCall UInt32 ℕ) :=
  [.put firstUnused 4 1,.put firstUnused 5 2,.remove 6,.put firstUnused 4 3]

lemma exampleCalls_allowed : ∀ call ∈ exampleCalls, call.Allowed := by
  have hmalloc : ∀ heap a, firstUnused heap = some a → heap a = none := by
    intro heap a ha
    simpa using List.find?_some ha
  intro call hcall
  rw [exampleCalls] at hcall
  fin_cases hcall
  exacts [hmalloc,hmalloc,trivial,hmalloc]

end Example

theorem hashTable_memory_example : ∃ s : Memory (UInt32 × ℕ) × Ht UInt32 ℕ,
    exampleCalls.foldlM (HtCall.apply 2) (occupied,htCreate 1 hashUint compareUints) = .ok s ∧
    htGet s.1 s.2 4 = .ok (some 3) ∧ htHasKey s.1 s.2 6 = .ok false ∧ htFree s.1 s.2 = .ok occupied := by
  obtain ⟨e,hfailed,-⟩ | ⟨s,hrun,hget,hhas,-,hfree⟩ := hashTable_memory keyEquivalence_uints
    (fun {a b} hab => by rw [(compareUints_eq_zero_iff a b).mp hab]) le_rfl 0 occupied exampleCalls_allowed
  · have hok : (exampleCalls.foldlM (HtCall.apply 2) (occupied,htCreate 1 hashUint compareUints)).isOk = true := by
      decide +kernel
    rw [hfailed] at hok
    cases hok
  · refine ⟨s,hrun,(hget 4).trans ?_,(hhas 6).trans ?_,hfree⟩
    · decide +kernel
    · decide +kernel

end History

end ClientServerApp.HashTable
