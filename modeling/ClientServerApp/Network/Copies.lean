import ClientServerApp.Server.Sent
import ClientServerApp.Subscriber.Framing

/-! The copy of a datagram at a subscriber: it is printed, unless the datagram ends every subscriber it reaches. -/
namespace ClientServerApp.Network
open Server (IsRelayed SockAddr)
open Subscriber (Printable Unnegatable)

/-- The data of the copy. -/
def payload (got : List UInt8) : Buffer (maxDataSize+1) := (Buffer.zeroed _).overwrite (got.drop (maxTopicSize+1))

/-- The type byte is that of a closing message, or the data are an integer that cannot be negated. -/
def Lethal (got : List UInt8) : Prop :=
  got[maxTopicSize]? = some closeSrvMsg ∨ got[maxTopicSize]? = some intSrvMsg ∧ Unnegatable (payload got)

instance (got : List UInt8) : Decidable (Lethal got) := inferInstanceAs (Decidable (_ ∨ _ ∧ _))

variable {addr : SockAddr} {got : List UInt8} {msg : SrvMsg}

lemma data_eq_payload (h : IsRelayed addr got msg) (hle : got.length ≤ udpMsgSize) : msg.data = payload got := by
  have := sizes
  have hge : maxTopicSize < got.length := (List.getElem?_eq_some_iff.mp h.type_eq).1
  have hlen : (got.drop (maxTopicSize+1)).length ≤ maxDataSize+1 := by
    rw [List.length_drop]
    omega
  apply Subtype.ext
  change msg.data.toList = (payload got).toList
  rw [h.data_eq,payload,Buffer.overwrite_toList _ hlen,Buffer.zeroed_toList,List.drop_replicate,List.length_drop]
  congr 2
  omega

/-- What a copy does to a subscriber shows in the bytes of the datagram. -/
lemma printable_iff (h : IsRelayed addr got msg) (hle : got.length ≤ udpMsgSize) : Printable msg ↔ ¬ Lethal got := by
  rw [Lethal,h.type_eq,← data_eq_payload h hle,not_or,not_and,Option.some_inj,Option.some_inj]
  constructor
  · intro hp
    exact ⟨hp.not_closing,hp.negatable⟩
  · rintro ⟨hopen,hnegatable⟩
    exact ⟨hopen,hnegatable⟩

end ClientServerApp.Network
