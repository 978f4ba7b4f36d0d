import ClientServerApp.Server.Sessions
import ClientServerApp.Subscriber.Model

/-! The id of a subscriber on its way into the tables of the server. -/
namespace ClientServerApp.Network
open Runs
open Server (Srv Connection Admissible Inv baseFds closeMsg)
open Subscriber (Sub connectToServer sentBytes)

/-- The bytes that a subscriber sends when it connects. -/
def idBytes (sub : Sub) : List UInt8 := sentBytes (connectToServer sub .ok).out

lemma idBytes_eq (sub : Sub) : idBytes sub = sub.id := by
  simp [idBytes,connectToServer,Subscriber.send,Subscriber.Io.ok,sentBytes,Traced.emit]

/-- What the one `recv` takes: as much of the id as it asks for. Nothing is sent for an empty id, so `recv` waits and
takes the beginning of the first message. -/
inductive FirstPiece (sub : Sub) : List UInt8 → Prop
  | id (nonempty : sub.id ≠ []) : FirstPiece sub ((idBytes sub).take (maxIdSize+1))
  | message (empty : sub.id = []) (order : ByteOrder) (msg : SubMsg) :
      FirstPiece sub ((msg.bytes order).take (maxIdSize+1))

/-- The connection of a subscriber: every call succeeds. -/
structure Brings (sub : Sub) (conn : Connection) : Prop where
  fd_ne : conn.fd ≠ -1
  setsockopt_ok : conn.setsockoptFails = false
  received_eq : ∃ got, conn.received = some got ∧ FirstPiece sub got
  io_ok : conn.io = .ok

/-- A connected session has the id. -/
def Connected (srv : Srv) (id : List UInt8) : Prop :=
  ∃ p block, srv.registry.byId id = some p ∧ srv.heap[p]? = some block ∧ block.sockFd ≠ -1

/-- The id is stored for the connection as it was sent: the terminator is inside the array, and `recv` took the whole
id and nothing else. -/
structure Stored (sub : Sub) (conn : Connection) (srv : Srv) : Prop where
  whole : conn.received = some (idBytes sub)
  terminated : (idBytes sub).length ≤ maxIdSize
  entry : ∃ p block, srv.registry.byId sub.id = some p ∧ srv.heap[p]? = some block ∧ block.id = sub.id ∧
    block.sockFd = conn.fd

/-- The connection is handled without a halt; the id is stored as it was sent, unless a connected session has it:
then the connection is refused and closed. -/
def KeepsId (order : ByteOrder) (srv : Srv) (sub : Sub) (conn : Connection) : Prop :=
  ∃ out srv', Server.step order srv (.connection conn) = ⟨out,.ok srv'⟩ ∧
    (¬ Connected srv sub.id → Stored sub conn srv') ∧
    (Connected srv sub.id → srv' = srv ∧ ∃ line,
      out = [.accept conn.fd,.send conn.fd closeMsg,.close conn.fd,.print line])

/-- The second subscriber connects after anything else: its id is kept too, and then each of the ids has a session,
one for both only if they are equal. -/
def KeptApart (order : ByteOrder) (u w : Int32) (t : List Server.Effect) (srv : Srv) (sub sub' : Sub)
    (conn' : Connection) : Prop :=
  ∀ es out later, (Server.machine order u w).Allows (Admissible (baseFds u w)) t srv es →
    (Server.machine order u w).steps srv es = ⟨out,.ok later⟩ → KeepsId order later sub' conn' ∧
    ∀ out' last, Server.step order later (.connection conn') = ⟨out',.ok last⟩ → ∃ p p',
      last.registry.byId sub.id = some p ∧ last.registry.byId sub'.id = some p' ∧ (p = p' ↔ sub.id = sub'.id)

variable {u w : Int32} {order : ByteOrder} {t out : List Server.Effect} {srv srv' : Srv} {sub sub' : Sub}
  {conn conn' : Connection}

/-- Without an id, or with a longer one, the array is filled, and the terminator is written behind it. -/
lemma not_keepsId (hconn : Brings sub conn) (hlong : ¬ (1 ≤ sub.id.length ∧ sub.id.length ≤ maxIdSize)) :
    ¬ KeepsId order srv sub conn := by
  rintro ⟨out,srv',hrun,-,-⟩
  obtain ⟨got,hgot,harrives⟩ := hconn.received_eq
  have hlen : maxIdSize < got.length := by
    cases harrives with
    | id hne =>
      have := List.length_pos_iff.mpr hne
      rw [idBytes_eq,List.length_take]
      omega
    | message _ order msg =>
      rw [List.length_take,SubMsg.bytes_length]
      decide
  have hhalt := @Server.handleListenTcpMsg_long order srv conn _ hconn.fd_ne hconn.setsockopt_ok hgot hlen
  cases hhalt.symm.trans hrun

lemma Brings.proceeds (hconn : Brings sub conn) (hne : 1 ≤ sub.id.length) (hfits : sub.id.length ≤ maxIdSize) :
    conn.Proceeds sub.id := by
  obtain ⟨got,hgot,harrives⟩ := hconn.received_eq
  refine ⟨hconn.fd_ne,hconn.setsockopt_ok,?_,hfits⟩
  cases harrives with
  | id => rw [hgot,idBytes_eq,List.take_of_length_le (by omega)]
  | message hempty => simp [hempty] at hne

section Reachable
variable (h : Inv u w t srv) (hconn : Brings sub conn) (hnul : 0 ∉ sub.id)
  (hfits : 1 ≤ sub.id.length ∧ sub.id.length ≤ maxIdSize)
include h

/-- A look-up goes on to find what it found. -/
lemma byId_kept {e : Server.Event} (hrun : Server.step order srv e = ⟨out,.ok srv'⟩)
    {id : List UInt8} {p : Server.Ptr}
    (hp : srv.registry.byId id = some p) : srv'.registry.byId id = some p := by
  cases h.transition hrun with
  | command => exact hp
  | datagram => exact hp
  | @first _ got _ _ _ hnone _ hreg =>
    have hne : id ≠ cString got := by
      rintro rfl
      cases hnone.symm.trans hp
    rw [hreg]
    exact (Function.update_of_ne hne _ _).trans hp
  | again _ _ _ _ _ hreg =>
    rw [hreg]
    exact hp
  | refused => exact hp
  | ignored => exact hp
  | resubscribed => exact hp
  | disconnected _ _ _ _ _ _ _ hreg =>
    rw [hreg]
    exact hp

/-- Two ids that are found at one session are equal. -/
lemma byId_injective {id id' : List UInt8} {p : Server.Ptr} (hp : srv.registry.byId id = some p)
    (hp' : srv.registry.byId id' = some p) : id = id' := by
  obtain ⟨block,hblock,hid⟩ := (h.coherent.byId_iff _ p).mp hp
  obtain ⟨block',hblock',hid'⟩ := (h.coherent.byId_iff _ p).mp hp'
  cases hblock.symm.trans hblock'
  exact hid.symm.trans hid'

include hconn hnul hfits

lemma keepsId : KeepsId order srv sub conn := by
  have hproceeds := hconn.proceeds hfits.1 hfits.2
  have hid := cString_eq_self hnul
  have hwhole : conn.received = some (idBytes sub) := by rw [hproceeds.received_eq,idBytes_eq]
  have hterm : (idBytes sub).length ≤ maxIdSize := by
    rw [idBytes_eq]
    exact hfits.2
  obtain ⟨out,srv',hrun⟩ := h.connection_runs order hproceeds hconn.io_ok
  refine ⟨out,srv',hrun,?_⟩
  cases h.connection_transition hrun with
  | first hproceeds' hnone _ hreg =>
    cases hproceeds.received_eq.symm.trans hproceeds'.received_eq
    rw [hid] at hnone
    refine ⟨fun _ => ⟨hwhole,hterm,srv.heap.length,
      ⟨cString sub.id,conn.fd,trieCreate 1 topicAlphabet.length topicAlphabet⟩,?_,?_,hid,rfl⟩,fun hlive => ?_⟩
    · rw [hreg]
      change Function.update srv.registry.byId (cString sub.id) (some srv.heap.length) sub.id = _
      rw [hid,Function.update_self]
    · change srv'.registry.heap[_]? = _
      rw [hreg]
      exact List.getElem?_concat_length
    · obtain ⟨p,-,hp,-⟩ := hlive
      cases hnone.symm.trans hp
  | @again _ _ p _ _ block hproceeds' hp hblock hpast _ hreg =>
    cases hproceeds.received_eq.symm.trans hproceeds'.received_eq
    have hbyId : srv.registry.byId sub.id = some p := (h.coherent.byId_iff _ p).mpr ⟨block,hp,hblock.trans hid⟩
    refine ⟨fun _ => ⟨hwhole,hterm,p,{ block with sockFd := conn.fd },?_,?_,hblock.trans hid,rfl⟩,fun hlive => ?_⟩
    · rw [hreg]
      exact hbyId
    · change srv'.registry.heap[_]? = _
      rw [hreg]
      exact (Server.getElem?_set_of_some hp _ p).trans (if_pos rfl)
    · obtain ⟨q,block',hq,hblock',hlive⟩ := hlive
      cases hbyId.symm.trans hq
      cases hp.symm.trans hblock'
      exact absurd hpast hlive
  | @refused _ _ _ p block hproceeds' hp hblock hlive =>
    cases hproceeds.received_eq.symm.trans hproceeds'.received_eq
    have hbyId : srv.registry.byId sub.id = some p := (h.coherent.byId_iff _ p).mpr ⟨block,hp,hblock.trans hid⟩
    exact ⟨fun hno => absurd ⟨p,block,hbyId,hp,hlive⟩ hno,fun _ => ⟨rfl,_,rfl⟩⟩

/-- After the connection a session has the id: the one that had it, or a new one. -/
lemma exists_session (hrun : Server.step order srv (.connection conn) = ⟨out,.ok srv'⟩) :
    ∃ p, srv'.registry.byId sub.id = some p ∧ ∀ id, srv'.registry.byId id = some p → id = sub.id := by
  have hproceeds := hconn.proceeds hfits.1 hfits.2
  have hid := cString_eq_self hnul
  cases h.connection_transition hrun with
  | @first _ got _ _ hproceeds' hnone _ hreg =>
    cases hproceeds.received_eq.symm.trans hproceeds'.received_eq
    have hbyId : srv'.registry.byId = Function.update srv.registry.byId sub.id (some srv.heap.length) := by
      rw [hreg]
      change Function.update srv.registry.byId (cString sub.id) _ = _
      rw [hid]
      rfl
    refine ⟨srv.heap.length,by rw [hbyId,Function.update_self],fun id hfound => ?_⟩
    by_contra hne
    rw [hbyId,Function.update_of_ne hne] at hfound
    obtain ⟨block,hblock,-⟩ := (h.coherent.byId_iff _ _).mp hfound
    exact absurd (List.getElem?_eq_some_iff.mp hblock).1 (lt_irrefl _)
  | @again _ _ p _ _ block hproceeds' hp hblock _ _ hreg =>
    cases hproceeds.received_eq.symm.trans hproceeds'.received_eq
    have hbyId : srv.registry.byId sub.id = some p := (h.coherent.byId_iff _ p).mpr ⟨block,hp,hblock.trans hid⟩
    rw [hreg]
    exact ⟨p,hbyId,fun id hfound => byId_injective h hfound hbyId⟩
  | @refused _ _ _ p block hproceeds' hp hblock _ =>
    cases hproceeds.received_eq.symm.trans hproceeds'.received_eq
    have hbyId : srv.registry.byId sub.id = some p := (h.coherent.byId_iff _ p).mpr ⟨block,hp,hblock.trans hid⟩
    exact ⟨p,hbyId,fun id hfound => byId_injective h hfound hbyId⟩

end Reachable

/-- A session that is found before the second subscriber connects is found afterwards too. -/
lemma keptApart {p : Server.Ptr} (h : Inv u w t srv) (hp : srv.registry.byId sub.id = some p)
    (hconn' : Brings sub' conn') (hnul' : 0 ∉ sub'.id) (hfits' : 1 ≤ sub'.id.length ∧ sub'.id.length ≤ maxIdSize) :
    KeptApart order u w t srv sub sub' conn' := by
  intro es out later hallows hsteps
  obtain ⟨hlater,hfound⟩ := hallows.invariant (I := fun t srv => Inv u w t srv ∧ srv.registry.byId sub.id = some p)
    (fun _ _ _ _ _ ⟨h,hp⟩ ha hrun => ⟨h.step ha hrun,byId_kept h hrun hp⟩) ⟨h,hp⟩ hsteps
  refine ⟨keepsId hlater hconn' hnul' hfits',fun out' last hrun => ?_⟩
  obtain ⟨p',hp',honly⟩ := exists_session hlater hconn' hnul' hfits' hrun
  have hlast := byId_kept hlater hrun hfound
  refine ⟨p,p',hlast,hp',fun heq => honly _ (heq ▸ hlast),fun heq => ?_⟩
  rw [heq] at hlast
  exact Option.some.inj (hlast.symm.trans hp')

/-- Two subscribers that connect from a reachable state on, with ids of any length and with anything in between: the
ids are kept apart exactly when each has a byte and at most `MAX_ID_SIZE` of them. -/
theorem ids_kept_iff {es : List Server.Event}
    (run : Run (Server.machine order u w) (Admissible (baseFds u w)) es t srv) (hnul : 0 ∉ sub.id)
    (hnul' : 0 ∉ sub'.id) (hconn : Brings sub conn) (hconn' : Brings sub' conn')
    (hnew : conn.fd ∉ Server.openFds (baseFds u w) t) :
    (KeepsId order srv sub conn ∧ ∀ out next, Server.step order srv (.connection conn) = ⟨out,.ok next⟩ →
      KeptApart order u w (t ++ out) next sub sub' conn') ↔
    (1 ≤ sub.id.length ∧ sub.id.length ≤ maxIdSize) ∧ 1 ≤ sub'.id.length ∧ sub'.id.length ≤ maxIdSize := by
  have h := Server.reachable_inv run
  constructor
  · rintro ⟨hkeep,hapart⟩
    obtain ⟨out,next,hrun,-,-⟩ := id hkeep
    have hkeep' := (hapart out next hrun [] [] next trivial rfl).1
    exact ⟨not_not.mp fun hlong => not_keepsId hconn hlong hkeep,
      not_not.mp fun hlong => not_keepsId hconn' hlong hkeep'⟩
  · rintro ⟨hfits,hfits'⟩
    refine ⟨keepsId h hconn hnul hfits,fun out next hrun => ?_⟩
    obtain ⟨p,hp,-⟩ := exists_session h hconn hnul hfits hrun
    have hadmissible : Admissible (baseFds u w) t (.connection conn) := by
      refine ⟨fun _ => hnew,fun got hgot => ?_⟩
      cases (hconn.proceeds hfits.1 hfits.2).received_eq.symm.trans hgot
      exact hfits.2.trans (Nat.le_succ _)
    exact keptApart (h.step hadmissible hrun) hp hconn' hnul' hfits'

/-- The connection of a subscriber whose id arrives as far as it is asked for. -/
def arrivingConnection (fd : Int32) (sub : Sub) : Connection :=
  Server.wholeConnection fd ((idBytes sub).take (maxIdSize+1))

lemma brings_arriving {fd : Int32} (hfd : fd ≠ -1) {sub : Sub} (hne : sub.id ≠ []) :
    Brings sub (arrivingConnection fd sub) :=
  ⟨hfd,rfl,⟨_,rfl,.id hne⟩,rfl⟩

/-- Two clients with short ids at a fresh server, one right after the other: each has a session of its own. -/
theorem ids_kept_short : ∃ out out' srv srv' p p',
    Server.step .little (Server.initSrv 3 4) (.connection (arrivingConnection 5 ⟨7,chars "abcdefghij"⟩)) =
      ⟨out,.ok srv⟩ ∧
    Server.step .little srv (.connection (arrivingConnection 6 ⟨8,chars "d"⟩)) = ⟨out',.ok srv'⟩ ∧
    srv'.registry.byId (chars "abcdefghij") = some p ∧ srv'.registry.byId (chars "d") = some p' ∧ p ≠ p' := by
  have hfive : Brings ⟨7,chars "abcdefghij"⟩ (arrivingConnection 5 ⟨7,chars "abcdefghij"⟩) :=
    brings_arriving (by decide) (by decide)
  have hsix : Brings ⟨8,chars "d"⟩ (arrivingConnection 6 ⟨8,chars "d"⟩) := brings_arriving (by decide) (by decide)
  obtain ⟨⟨out,srv,hrun,-,-⟩,hapart⟩ := (@ids_kept_iff 3 4 .little [] _ ⟨7,chars "abcdefghij"⟩ ⟨8,chars "d"⟩ _ _ []
    .init (by decide) (by decide) hfive hsix (by decide)).mpr (by decide)
  obtain ⟨⟨out',srv',hrun',-,-⟩,hfound⟩ := hapart out srv hrun [] [] srv trivial rfl
  obtain ⟨p,p',hp,hp',heq⟩ := hfound out' srv' hrun'
  exact ⟨out,out',srv,srv',p,p',hrun,hrun',hp,hp',fun h => absurd (heq.mp h) (by decide)⟩

/-- The id of eleven bytes is not refused: its terminator is written behind the array. -/
theorem id_eleven_undefined :
    Server.step .little (Server.initSrv 3 4) (.connection (arrivingConnection 5 ⟨7,chars "abcdefghijk"⟩)) =
      ⟨[.accept 5],.error .undefined⟩ ∧
    ¬ KeepsId .little (Server.initSrv 3 4) ⟨7,chars "abcdefghijk"⟩
      (arrivingConnection 5 ⟨7,chars "abcdefghijk"⟩) :=
  ⟨Server.handleListenTcpMsg_long (by decide) rfl rfl (by decide),
    not_keepsId (brings_arriving (by decide) (by decide)) (by decide)⟩

end ClientServerApp.Network
