import ClientServerApp.Numerals
import ClientServerApp.Library.Rounding
import ClientServerApp.Server.Handlers

/-! The lines that the subscriber prints for the messages of the publishers. The functions of the C
library are those of the server; how a quotient of doubles is rounded is a parameter. -/
namespace ClientServerApp.Subscriber
open Rounding
open Server (ntohl ntohs inetNtoa)

/-- A `double`: its sign, also that of a zero, and its magnitude. -/
structure Double where
  negative : Bool
  magnitude : ℚ
  deriving DecidableEq, Repr

namespace Double

/-- The numbers below 2^53 are doubles. -/
def ofNat (n : ℕ) : Double := ⟨false,n⟩

def neg (x : Double) : Double := { x with negative := !x.negative }

def div (round : ℚ → ℚ) (x : Double) (n : ℕ) : Double := { x with magnitude := round (x.magnitude / n) }

end Double

/-- The digits of a number, filled up with zeros from the left. -/
def paddedDecimal (width n : ℕ) : List UInt8 := List.replicate (width - (decimal n).length) (chr '0') ++ decimal n

/-- `%f` with the given number of decimals. -/
def fixedDecimal (decimals : ℕ) (x : Double) : List UInt8 :=
  let scaled := roundHalfEven (x.magnitude * 10^decimals)
  (if x.negative then chars "-" else []) ++ decimal (scaled / 10^decimals) ++ chars "." ++
    paddedDecimal decimals (scaled % 10^decimals)

/-- `%d` -/
def signedDecimal (n : ℤ) : List UInt8 := (if n < 0 then chars "-" else []) ++ decimal n.natAbs

section Messages
variable (round : ℚ → ℚ) (order : ByteOrder) (msg : SrvMsg)

/-- `inet_ntoa(*(struct in_addr *) &msg.provider_ip)` -/
def providerIp : List UInt8 := inetNtoa ⟨order.store32 msg.providerIp,order.store32_length _⟩

/-- `ntohl(* (uint32_t *) &msg.data[1])` -/
def dataMagnitude : UInt32 := ntohl order (order.load32 (msg.data.slice 1 4 (by decide)).toList)

/-- The format `"%s:%hu - %s - KIND - ..\n"`, where the last conversion has given `value`. -/
def printMsg (kind : String) (value : List UInt8) : Outcome (List UInt8) := do
  let topic ← readString msg.topic.toList
  pure (providerIp order msg ++ chars ":" ++ decimal msg.providerPort.toNat ++ chars " - " ++ topic ++
    chars " - " ++ chars kind ++ chars " - " ++ value ++ chars "\n")

/-- The negation of the least `int` overflows. -/
def negInt (val : Int32) : Outcome Int32 := if val = Int32.minValue then .error .undefined else .ok (-val)

def printIntMsg : Outcome (List UInt8) := do
  let val := (dataMagnitude order msg).toInt32
  let sign := msg.data.get 0
  let val ← (if sign = 0 then pure val else negInt val)
  printMsg order msg "INT" (signedDecimal val.toInt)

/-- The digit behind `%f` is text. -/
def printShortRealMsg : Outcome (List UInt8) :=
  let val := (Double.ofNat (ntohs order (order.load16 (msg.data.slice 0 2 (by decide)).toList)).toNat).div round 100
  printMsg order msg "SHORT_REAL" (fixedDecimal 6 val ++ chars ".2")

/-- The digit behind `%f` is text. -/
def printFloatMsg : Outcome (List UInt8) :=
  let val := Double.ofNat (dataMagnitude order msg).toNat
  let sign := msg.data.get 0
  let val := if sign = 0 then val else val.neg
  let power := msg.data.get 5
  let val := (fun val : Double => val.div round 10)^[power.toNat] val
  printMsg order msg "FLOAT" (fixedDecimal 6 val ++ chars ".4")

def printStringMsg : Outcome (List UInt8) := do
  let data ← readString msg.data.toList
  printMsg order msg "STRING" data

/-- The format `INVALID_RECV_MSG`. -/
def printInvalidMsg : Outcome (List UInt8) := do
  let topic ← readString msg.topic.toList
  let data ← readString msg.data.toList
  pure (chars "Received invalid message from server:topic - " ++ topic ++ chars " type - " ++
    decimal msg.type.toNat ++ chars " data - " ++ data ++ chars "\n")

end Messages

section Lines
variable {order : ByteOrder} {msg : SrvMsg}

/-- Every line starts with the address in the message. -/
lemma printMsg_ok {kind : String} {value topic : List UInt8} (htopic : readString msg.topic.toList = .ok topic) :
    printMsg order msg kind value = .ok (providerIp order msg ++ chars ":" ++ decimal msg.providerPort.toNat ++
      chars " - " ++ (topic ++ chars " - " ++ chars kind ++ chars " - " ++ value ++ chars "\n")) := by
  rw [printMsg,htopic]
  simp only [List.append_assoc]
  rfl

lemma printStringMsg_eq {data : List UInt8} (hdata : readString msg.data.toList = .ok data) :
    printStringMsg order msg = printMsg order msg "STRING" data := by
  rw [printStringMsg,hdata]
  rfl

lemma printInvalidMsg_ok {topic data : List UInt8} (htopic : readString msg.topic.toList = .ok topic)
    (hdata : readString msg.data.toList = .ok data) :
    printInvalidMsg msg = .ok (chars "Received invalid message from server:topic - " ++ topic ++ chars " type - " ++
      decimal msg.type.toNat ++ chars " data - " ++ data ++ chars "\n") := by
  rw [printInvalidMsg,htopic,hdata]
  rfl

end Lines

-- seven divisions by ten bring 5 above 0.0000005
example : fixedDecimal 6 ((fun val : Double => val.div binary64 10)^[7] (.ofNat 5)) = chars "0.000001" := by
  decide +kernel

end ClientServerApp.Subscriber
