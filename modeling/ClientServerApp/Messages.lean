import ClientServerApp.Base

/-! The messages of the three programs, as the packed structures of `msg.h`. -/
namespace ClientServerApp

/-! Type of messages from a subscriber. -/

def subscribeSubMsg : UInt32 := 0
def unsubscribeSubMsg : UInt32 := 1
def closeSubMsg : UInt32 := 2

/-! Type of messages from the server. -/

def intSrvMsg : UInt8 := 0
def shortRealSrvMsg : UInt8 := 1
def floatSrvMsg : UInt8 := 2
def stringSrvMsg : UInt8 := 3
def closeSrvMsg : UInt8 := 4

abbrev maxTopicSize : ℕ := 50
abbrev maxDataSize : ℕ := 1500
abbrev maxIdSize : ℕ := 10

/-- Upper case `T` comes before `S`, and `+` and `*` occur a second time among the punctuation. -/
def topicAlphabet : List UInt8 :=
  chars ("+*/-_." ++
    "abcdefghijklmnopqrstuvwxyz" ++
    "ABCDEFGHIJKLMNOPQRTSUVWXYZ" ++
    "0123456789" ++
    "~`!@#$%^&*()+=\x7b\x7d[];:'<>,?|\"\\")

/-- A word over the topic alphabet. -/
def IsTopic (key : List UInt8) : Prop := ∀ c ∈ key, c ∈ topicAlphabet

instance (key : List UInt8) : Decidable (IsTopic key) := List.decidableBAll (· ∈ topicAlphabet) key

lemma slash_mem_alphabet : slash ∈ topicAlphabet := by decide +kernel
lemma plus_mem_alphabet : plus ∈ topicAlphabet := by decide +kernel
lemma star_mem_alphabet : star ∈ topicAlphabet := by decide +kernel

/-- A topic is a C string. -/
lemma zero_not_mem_topic {topic : List UInt8} (h : IsTopic topic) : 0 ∉ topic := by
  intro hzero
  have hmem := h 0 hzero
  revert hmem
  decide +kernel

/-- A subscriber's message. -/
@[ext] structure SubMsg where
  type : UInt32
  topic : Buffer (maxTopicSize+1)

/-- A server's message to a subscriber. -/
@[ext] structure SrvMsg where
  type : UInt8
  providerIp : UInt32
  providerPort : UInt16
  topic : Buffer (maxTopicSize+1)
  data : Buffer (maxDataSize+1)
  deriving DecidableEq

/-- A udp provider's message. -/
structure UdpMsg where
  topic : Buffer maxTopicSize
  type : UInt8
  data : Buffer maxDataSize

abbrev subMsgSize : ℕ := 4 + (maxTopicSize+1)
abbrev srvMsgSize : ℕ := 1 + 4 + 2 + (maxTopicSize+1) + (maxDataSize+1)
abbrev udpMsgSize : ℕ := maxTopicSize + 1 + maxDataSize

/-- The sizes as numbers, for linear arithmetic. -/
lemma sizes : maxTopicSize = 50 ∧ maxDataSize = 1500 ∧ maxIdSize = 10 ∧ subMsgSize = 55 ∧
    srvMsgSize = 1559 ∧ udpMsgSize = 1551 := ⟨rfl,rfl,rfl,rfl,rfl,rfl⟩

namespace SubMsg
variable (order : ByteOrder)

/-- The bytes of the structure in memory. -/
def bytes (m : SubMsg) : List UInt8 := order.store32 m.type ++ m.topic.toList

def ofBytes (b : Buffer subMsgSize) : SubMsg where
  type := order.load32 (b.slice 0 4 (by decide)).toList
  topic := b.slice 4 (maxTopicSize+1) (by decide)

@[simp] theorem bytes_length (m : SubMsg) : (m.bytes order).length = subMsgSize := by
  simp [bytes]

@[simp] theorem ofBytes_bytes (m : SubMsg) : ofBytes order ⟨m.bytes order,m.bytes_length order⟩ = m := by
  have ht : (order.store32 m.type).length = 4 := order.store32_length m.type
  apply SubMsg.ext
  · change order.load32 ((order.store32 m.type ++ m.topic.toList).take 4) = m.type
    rw [List.take_left' ht,ByteOrder.load32_store32]
  · apply List.Vector.eq
    change ((order.store32 m.type ++ m.topic.toList).drop 4).take 51 = m.topic.toList
    rw [List.drop_left' ht,List.take_of_length_le m.topic.toList_length.le]

omit order in
lemma type_cases (m : SubMsg) : m.type = unsubscribeSubMsg ∨ m.type = subscribeSubMsg ∨ m.type = closeSubMsg ∨
    m.type ≠ unsubscribeSubMsg ∧ m.type ≠ subscribeSubMsg ∧ m.type ≠ closeSubMsg := by
  tauto

end SubMsg

namespace SrvMsg
variable (order : ByteOrder)

/-- The bytes of the structure in memory. -/
def bytes (m : SrvMsg) : List UInt8 :=
  [m.type] ++ order.store32 m.providerIp ++ order.store16 m.providerPort ++ m.topic.toList ++
    m.data.toList

def ofBytes (b : Buffer srvMsgSize) : SrvMsg where
  type := b.get 0
  providerIp := order.load32 (b.slice 1 4 (by decide)).toList
  providerPort := order.load16 (b.slice 5 2 (by decide)).toList
  topic := b.slice 7 (maxTopicSize+1) (by decide)
  data := b.slice (7 + (maxTopicSize+1)) (maxDataSize+1) (by decide)

@[simp] theorem bytes_length (m : SrvMsg) : (m.bytes order).length = srvMsgSize := by
  simp [bytes]
  rfl

@[simp] theorem ofBytes_bytes (m : SrvMsg) : ofBytes order ⟨m.bytes order,m.bytes_length order⟩ = m := by
  have hi : (order.store32 m.providerIp).length = 4 := order.store32_length _
  have hp : (order.store16 m.providerPort).length = 2 := order.store16_length _
  have ht : m.topic.toList.length = 51 := m.topic.toList_length
  have hd : m.data.toList.length = 1501 := m.data.toList_length
  have h1 : (m.bytes order).drop 1 = order.store32 m.providerIp ++ (order.store16 m.providerPort ++
      (m.topic.toList ++ m.data.toList)) := by simp [bytes]
  have h5 : (m.bytes order).drop 5 = order.store16 m.providerPort ++
      (m.topic.toList ++ m.data.toList) := by
    rw [show 5 = 1 + 4 from rfl,← List.drop_drop,h1,List.drop_left' hi]
  have h7 : (m.bytes order).drop 7 = m.topic.toList ++ m.data.toList := by
    rw [show 7 = 5 + 2 from rfl,← List.drop_drop,h5,List.drop_left' hp]
  have h58 : (m.bytes order).drop 58 = m.data.toList := by
    rw [show 58 = 7 + 51 from rfl,← List.drop_drop,h7,List.drop_left' ht]
  apply SrvMsg.ext
  · rfl
  · change order.load32 (((m.bytes order).drop 1).take 4) = m.providerIp
    rw [h1,List.take_left' hi,ByteOrder.load32_store32]
  · change order.load16 (((m.bytes order).drop 5).take 2) = m.providerPort
    rw [h5,List.take_left' hp,ByteOrder.load16_store16]
  · apply List.Vector.eq
    change ((m.bytes order).drop 7).take 51 = m.topic.toList
    rw [h7,List.take_left' ht]
  · apply List.Vector.eq
    change ((m.bytes order).drop 58).take 1501 = m.data.toList
    rw [h58,List.take_of_length_le hd.le]

/-- Both strings of the message end inside their fields. -/
structure Terminated (m : SrvMsg) : Prop where
  topic : 0 ∈ m.topic.toList
  data : 0 ∈ m.data.toList

end SrvMsg

namespace UdpMsg

def ofBytes (b : Buffer udpMsgSize) : UdpMsg where
  topic := b.slice 0 maxTopicSize (by decide)
  type := b.get ⟨maxTopicSize,by decide⟩
  data := b.slice (maxTopicSize+1) maxDataSize (by decide)

end UdpMsg

end ClientServerApp
