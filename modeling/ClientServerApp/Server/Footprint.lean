import ClientServerApp.Trie.Shape
import ClientServerApp.HashTable.History
import ClientServerApp.Server.MainLoop

/-! What the server keeps allocated, against the descriptors that were open at once, the clients it knows and the
topics they are subscribed to. -/
namespace ClientServerApp.Server
open Traced Runs

section Peak
variable {base : Finset Int32}

end Peak

/-- How a handler call changes the sizes of what the server has allocated. -/
structure Grows (srv srv' : Srv) : Prop where
  heap : srv.heap.length ≤ srv'.heap.length
  maxNfds : srv'.maxNfds = srv.maxNfds ∨ srv'.maxNfds < 2*srv'.nfds
  byFd : srv'.subsByFd.hmax = srv.subsByFd.hmax ∨ 3*srv'.subsByFd.hmax ≤ 8*srv'.subsByFd.size
  byId : srv'.subsById.hmax = srv.subsById.hmax ∨ 3*srv'.subsById.hmax ≤ 8*srv'.subsById.size

section Growth
variable {u w : Int32} {order : ByteOrder} {t out : List Effect} {srv srv' : Srv}

lemma Grows.refl (srv : Srv) : Grows srv srv := ⟨le_refl _,.inl rfl,.inl rfl,.inl rfl⟩

end Growth

section Counts
variable {u w : Int32} {order : ByteOrder} {t out : List Effect} {srv srv' : Srv}

namespace Inv
variable (h : Inv u w t srv)
include h

/-- The table of the descriptors has one pair for each monitored one. -/
lemma byFd_size : srv.subsByFd.size = srv.watched.length := by
  have hsame : ∀ a b, srv.subsByFd.same a b = true ↔ a = b := by
    intro a b
    rw [Ht.same,h.sound.byFd_compare,beq_iff_eq,compareUints_eq_zero_iff]
  have hnodup : (srv.watched.map Int32.toUInt32).Nodup := h.coherent.nodup.map fun _ _ => toUInt32_injective
  rw [h.sound.byFd_valid.size_eq_length hsame hnodup,List.length_map]
  intro k
  have hwatched := h.coherent.watched_iff k.toInt32
  change k.toInt32 ∈ srv.watched ↔ (htGet srv.subsByFd k.toInt32.toUInt32).isSome at hwatched
  rw [UInt32.toUInt32_toInt32] at hwatched
  rw [← hwatched,List.mem_map]
  constructor
  · rintro ⟨fd,hfd,rfl⟩
    rwa [Int32.toInt32_toUInt32]
  · exact fun hk => ⟨_,hk,UInt32.toUInt32_toInt32 k⟩

/-- No two blocks have the same id. -/
lemma ids_nodup : (srv.heap.map Sub.id).Nodup := by
  rw [List.nodup_iff_injective_getElem]
  intro ⟨p,hp⟩ ⟨q,hq⟩ heq
  rw [List.length_map] at hp hq
  have hid : srv.heap[p].id = srv.heap[q].id := by simpa using heq
  have hbyp := (h.coherent.byId_iff _ p).mpr ⟨srv.heap[p],List.getElem?_eq_getElem hp,rfl⟩
  have hbyq := (h.coherent.byId_iff _ q).mpr ⟨srv.heap[q],List.getElem?_eq_getElem hq,hid.symm⟩
  exact Fin.ext (Option.some.inj (hbyp.symm.trans hbyq))

/-- The table of the ids has one pair for each block. -/
lemma byId_size : srv.subsById.size = srv.heap.length := by
  have hsame : ∀ a b, srv.subsById.same a b = true ↔ a = b := by
    intro a b
    rw [Ht.same,h.sound.byId_compare,beq_iff_eq,compareStrings_eq_zero_iff]
  rw [h.sound.byId_valid.size_eq_length hsame h.ids_nodup,List.length_map]
  intro id
  change _ ↔ (srv.registry.byId id).isSome
  rw [Option.isSome_iff_exists,List.mem_map]
  constructor
  · rintro ⟨sub,hsub,hid⟩
    obtain ⟨p,hp⟩ := List.mem_iff_getElem?.mp hsub
    exact ⟨p,(h.coherent.byId_iff id p).mpr ⟨sub,hp,hid⟩⟩
  · rintro ⟨p,hp⟩
    obtain ⟨sub,hsub,hid⟩ := (h.coherent.byId_iff id p).mp hp
    exact ⟨sub,List.mem_of_getElem? hsub,hid⟩

/-- Each entry of the array of `poll` is an open descriptor. -/
lemma nfds_le_card : srv.nfds = srv.watched.length+3 ∧ srv.watched.length+3 ≤ (openFds (baseFds u w) t).card := by
  have hge := h.sound.nfds_ge
  have hle := h.sound.nfds_le
  have hlen := h.sound.pfds_length
  constructor
  · rw [Srv.watched_eq,List.length_map,Srv.entries,List.length_drop,List.length_take]
    omega
  · have hopen : openFds (baseFds u w) t = baseFds u w ∪ srv.watched.toFinset := by
      ext fd
      rw [h.fds.open_iff,Finset.mem_union,List.mem_toFinset]
    have hdisjoint : Disjoint (baseFds u w) srv.watched.toFinset := by
      rw [Finset.disjoint_right]
      intro fd hfd
      exact h.fds.apart (List.mem_toFinset.mp hfd)
    have hbase : 3 ≤ (baseFds u w).card := by
      have hstd : ({0,1,2} : Finset Int32) ⊆ baseFds u w := by
        intro fd hfd
        simp only [Finset.mem_insert,Finset.mem_singleton] at hfd
        simp only [baseFds,Finset.mem_insert,Finset.mem_singleton]
        tauto
      exact Finset.card_le_card hstd
    have hnodup : srv.watched.Nodup := h.coherent.nodup
    rw [hopen,Finset.card_union_of_disjoint hdisjoint,List.toFinset_card_of_nodup hnodup]
    omega

end Inv

/-- What is allocated, against the most descriptors that were open at once. -/
structure Fits (n : ℕ) (srv : Srv) : Prop where
  maxNfds : srv.maxNfds = 256 ∨ srv.maxNfds < 2*n
  byFd : srv.subsByFd.hmax = 2 ∨ 3*srv.subsByFd.hmax ≤ 8*n
  byId : srv.subsById.hmax = 2 ∨ 3*srv.subsById.hmax ≤ 8*srv.heap.length

/-- One step stays within a bound that covers what is open after it. -/
lemma Fits.step {n n' : ℕ} (h : Fits n srv) (hn : n ≤ n') (hgrows : Grows srv srv') (hinv : Inv u w t srv')
    (hopen : (openFds (baseFds u w) t).card ≤ n') : Fits n' srv' := by
  obtain ⟨hnfds,hcard⟩ := hinv.nfds_le_card
  have hfd := hinv.byFd_size
  have hid := hinv.byId_size
  refine ⟨?_,?_,?_⟩
  · rcases hgrows.maxNfds with hsame | hlt
    · have := h.maxNfds
      omega
    · omega
  · rcases hgrows.byFd with hsame | hle
    · have := h.byFd
      omega
    · omega
  · rcases hgrows.byId with hsame | hle
    · have := h.byId
      have := hgrows.heap
      omega
    · omega

end Counts

section Footprint
variable {u w : Int32} {order : ByteOrder} {es : List Event} {t : List Effect} {srv : Srv}

end Footprint

end ClientServerApp.Server
