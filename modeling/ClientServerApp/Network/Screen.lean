import ClientServerApp.Network.Guarantees
import ClientServerApp.Network.Address
import ClientServerApp.Subscriber.Screen

/-! From the datagram of a publisher to the line on the screen of a subscriber: what the bytes encode, what the
screen tells about it, and which datagrams have a line there. -/
namespace ClientServerApp.Network.Closed
open Traced Runs
open Server (IsRelayed baseFds)
open Subscriber

section Lines

/-- The address of a sender on the screen: little-endian hosts turn its four bytes around. -/
def shownSender (order : ByteOrder) (a b c d : UInt8) (port : UInt16) : List UInt8 := match order with
  | .big => senderText a b c d port
  | .little => senderText d c b a port

def lineText (sender topic : List UInt8) (kind : String) (value : List UInt8) : List UInt8 :=
  sender ++ chars " - " ++ (topic ++ chars " - " ++ chars kind ++ chars " - " ++ value ++ chars "\n")

/-- The line tells what the data encode for the type. A magnitude above the range of `int` is off by 2^32. Fractions
have six decimals and one more digit behind a second point; the six decimals are exact for a `SHORT_REAL` and off by
a millionth at most for a `FLOAT`, whose divisions are rounded one by one. A text ends with the first NUL. -/
inductive Tells (sender topic : List UInt8) (data : Buffer (maxDataSize+1)) : UInt8 → List UInt8 → Prop
  | int {magnitude} (encoded : intPayload (data.get 0) magnitude <+: data.toList) :
      Tells sender topic data intSrvMsg
        (lineText sender topic "INT" (signedDecimal (intShown (data.get 0) magnitude)))
  | shortReal {text} (numeral : IsNumeral 6 text (shortRealValue data)) :
      Tells sender topic data shortRealSrvMsg (lineText sender topic "SHORT_REAL" (text ++ chars ".2"))
  | float {text q} (numeral : IsNumeral 6 text q) (near : |q - (floatValue data).value| ≤ 1/10^6) :
      Tells sender topic data floatSrvMsg (lineText sender topic "FLOAT" (text ++ chars ".4"))
  | string : Tells sender topic data stringSrvMsg (lineText sender topic "STRING" (cString data.toList))
  | unknown {type} (other : closeSrvMsg < type) :
      Tells sender topic data type (chars "Received invalid message from server:topic - " ++ topic ++
        chars " type - " ++ decimal type.toNat ++ chars " data - " ++ cString data.toList ++ chars "\n")

/-- The line for a datagram. -/
def Announces (order : ByteOrder) (dgram : Server.Datagram) (line : List UInt8) : Prop :=
  ∃ got a b c d port type, dgram.received = some got ∧ dgram.addr = senderAddr a b c d port ∧
    got[maxTopicSize]? = some type ∧
    Tells (shownSender order a b c d port) (cString (got.take maxTopicSize)) (payload got) type line

variable {order : ByteOrder} {got : List UInt8} {msg : SrvMsg}

lemma exists_senderAddr (addr : Server.SockAddr) : ∃ a b c d port, addr = senderAddr a b c d port := by
  obtain ⟨⟨sinAddr,haddr⟩,⟨sinPort,hport⟩⟩ := addr
  obtain ⟨a,b,c,d,rfl⟩ := List.length_eq_four.mp haddr
  refine ⟨a,b,c,d,ByteOrder.big.load16 sinPort,?_⟩
  simp only [senderAddr,ByteOrder.big.store16_load16 hport]

lemma lt_of_ne_types {type : UInt8} (hint : type ≠ intSrvMsg) (hshort : type ≠ shortRealSrvMsg)
    (hfloat : type ≠ floatSrvMsg) (hstring : type ≠ stringSrvMsg) (hclose : type ≠ closeSrvMsg) :
    closeSrvMsg < type := by
  rw [UInt8.lt_iff_toNat_lt]
  simp only [ne_eq,← UInt8.toNat_inj] at hint hshort hfloat hstring hclose
  simp [intSrvMsg,shortRealSrvMsg,floatSrvMsg,stringSrvMsg,closeSrvMsg] at hint hshort hfloat hstring hclose ⊢
  omega

/-- The line for the copy of a datagram tells what the datagram encodes. -/
lemma relayed_line {a b c d : UInt8} {port : UInt16} (h : IsRelayed (senderAddr a b c d port) got msg)
    (hle : got.length ≤ udpMsgSize) (hlethal : ¬ Lethal got) :
    ∃ line, lineOf order msg (branch msg.type) = .ok line ∧
      Tells (shownSender order a b c d port) (cString (got.take maxTopicSize)) (payload got) msg.type line := by
  obtain ⟨hopen,hnegatable⟩ := (printable_iff h hle).mpr hlethal
  have hterm := h.terminated _ hle
  have htopic := h.readString_topic
  have hline : ∀ kind value, printMsg order msg kind value =
      .ok (lineText (shownSender order a b c d port) (cString (got.take maxTopicSize)) kind value) := by
    intro kind value
    rw [printMsg_ok htopic,providerIp_relayed h]
    cases order <;> rfl
  rw [← data_eq_payload h hle]
  by_cases hzero : msg.type = intSrvMsg
  · obtain ⟨magnitude,hdata⟩ := exists_intPayload msg.data
    have hprint := printIntMsg_shown order hdata (hnegatable hzero)
    rw [hzero]
    exact ⟨_,hprint.trans (hline _ _),.int hdata⟩
  by_cases hone : msg.type = shortRealSrvMsg
  · have hnumeral := fixedDecimal_isNumeral (show 0 < 6 by decide) (shortRealDouble Rounding.binary64 msg.data)
    rw [shortReal_exact] at hnumeral
    rw [hone]
    exact ⟨_,(shortReal_line _ order msg).trans (hline _ _),.shortReal hnumeral⟩
  by_cases htwo : msg.type = floatSrvMsg
  · have hnumeral := fixedDecimal_isNumeral (show 0 < 6 by decide) (floatDouble Rounding.binary64 msg.data)
    rw [htwo]
    exact ⟨_,(float_line _ order msg).trans (hline _ _),.float hnumeral float_near⟩
  by_cases hthree : msg.type = stringSrvMsg
  · rw [hthree]
    exact ⟨_,(printStringMsg_eq (readString_ok hterm.data)).trans (hline _ _),.string⟩
  · have hbranch : branch msg.type = .invalidRecvMsg := by
      rw [branch,if_neg hzero,if_neg hone,if_neg htwo,if_neg hthree,if_neg hopen]
    rw [hbranch]
    refine ⟨_,?_,.unknown (lt_of_ne_types hzero hone htwo hthree hopen)⟩
    simp only [lineOf,printInvalidMsg,htopic,readString_ok hterm.data]
    rfl

end Lines

section Datagrams

/-- The broker has the datagram for program `k`: it is connected, and a topic of its name accepts. -/
def datagramFor (k : ℕ) (b : State) : Event → List Server.Datagram
  | .datagram dgram => match b.peers[k]?,dgram.received with
    | some p,some got =>
      if b.stopped = false ∧ p.connected ∧
        ∃ key ∈ b.topics p.name, AcceptsTopic key (cString (got.take maxTopicSize)) then [dgram] else []
    | _,_ => []
  | _ => []

/-- The datagrams of the events that the broker has for program `k`. -/
def datagramsFor (order : ByteOrder) (k : ℕ) : State → List Event → List Server.Datagram
  | _,[] => []
  | b,e :: es => datagramFor k b e ++ datagramsFor order k (b.next Server.closeMsg ends (e.brokerEvent order)) es

/-- The message is the copy of the datagram, which ends no subscriber. -/
def IsCopy (dgram : Server.Datagram) (msg : SrvMsg) : Prop :=
  ∃ got, dgram.received = some got ∧ got.length ≤ udpMsgSize ∧ ¬ Lethal got ∧ IsRelayed dgram.addr got msg

variable {u w : Int32} {order : ByteOrder} {es : List Event} {t : List Server.Effect} {sys : System} {k : ℕ}

lemma ProperRun.proper_of_mem (run : ProperRun order u w es t sys) {e : Event} (he : e ∈ es) :
    ∃ t sys, Proper (baseFds u w) t sys e := by
  induction run with
  | init => exact absurd he List.not_mem_nil
  | step _ allowed _ ih =>
    rcases List.mem_append.mp he with he | he
    · exact ih he
    · obtain rfl := List.mem_singleton.mp he
      exact ⟨_,_,allowed⟩

/-- Apart from the closing message a program is told the copies of its datagrams. -/
lemma told_copies (b : State) {e : Event} (hproper : Proper (baseFds u w) t sys e) :
    List.Forall₂ IsCopy (datagramFor k b e) ((b.told Server.closeMsg k (e.brokerEvent order)).filter (!ends ·)) := by
  -- on any other event the closing message is all that is told
  have hclosing : (∀ msg accepts, e.brokerEvent order ≠ .publish msg accepts) →
      List.Forall₂ IsCopy [] ((b.told Server.closeMsg k (e.brokerEvent order)).filter (!ends ·)) := by
    intro h
    rw [List.filter_eq_nil_iff.mpr fun msg hmsg => ?_]
    · exact .nil
    · rcases Broker.State.mem_told hmsg with rfl | ⟨accepts,heq⟩
      · decide
      · exact absurd heq (h msg accepts)
  cases e with
  | datagram dgram =>
    obtain ⟨-,got,hgot,hge,hle,-,hlethal⟩ := hproper
    obtain ⟨msg,hmsg,hrelayed⟩ := Server.srvMsg_relayed order dgram.addr dgram.stack hge hle
    have hopen : ends msg = false := by
      simp only [ends,decide_eq_false_iff_not]
      exact ((printable_iff hrelayed hle).mpr hlethal).not_closing
    rw [show Event.brokerEvent order (.datagram dgram) = relay order dgram from rfl,Refines.relay_eq hgot hmsg]
    cases hk : b.peers[k]? with
    | none => simp [datagramFor,Broker.State.told,hk]
    | some p =>
      simp only [datagramFor,Broker.State.told,hk,hgot,decide_eq_true_eq,mem_patterns_iff_accepts]
      split_ifs
      · rw [List.filter_cons_of_pos (by simp [hopen])]
        exact .cons ⟨got,hgot,hle,hlethal,hrelayed⟩ .nil
      · exact .nil
  | start sub => exact hclosing (by simp [Event.brokerEvent])
  | line j line =>
    refine hclosing fun msg accepts => ?_
    simp only [Event.brokerEvent]
    cases typed line <;> simp
  | handle j stack => exact hclosing (by simp [Event.brokerEvent])
  | accept fd addr stack => exact hclosing (by simp [Event.brokerEvent])
  | read j stack => exact hclosing (by simp [Event.brokerEvent])
  | console line =>
    refine hclosing fun msg accepts => ?_
    simp only [Event.brokerEvent]
    split_ifs <;> simp

lemma toldBy_copies (b : State) (hproper : ∀ e ∈ es, ∃ t sys, Proper (baseFds u w) t sys e) :
    List.Forall₂ IsCopy (datagramsFor order k b es)
      ((Broker.State.toldBy Server.closeMsg ends k b (es.map (Event.brokerEvent order))).filter (!ends ·)) := by
  induction es generalizing b with
  | nil => exact .nil
  | cons e es ih =>
    obtain ⟨t,sys,he⟩ := hproper e List.mem_cons_self
    rw [datagramsFor,List.map_cons,Broker.State.toldBy,List.filter_append]
    exact List.rel_append (told_copies b he) (ih _ fun e' he' => hproper e' (List.mem_cons_of_mem e he'))

/-- A line for each copy. -/
lemma exists_lines {dgrams : List Server.Datagram} {msgs : List SrvMsg} (h : List.Forall₂ IsCopy dgrams msgs) :
    ∃ lines, List.Forall₂ (fun msg line => lineOf order msg (branch msg.type) = .ok line) msgs lines ∧
      List.Forall₂ (Announces order) dgrams lines := by
  induction h with
  | nil => exact ⟨[],.nil,.nil⟩
  | @cons dgram msg dgrams msgs hcopy _ ih =>
    obtain ⟨got,hgot,hle,hlethal,hrelayed⟩ := hcopy
    obtain ⟨a,b,c,d,port,haddr⟩ := exists_senderAddr dgram.addr
    obtain ⟨line,hline,htells⟩ := @relayed_line order got msg a b c d port (haddr ▸ hrelayed) hle hlethal
    obtain ⟨lines,hlines,hall⟩ := ih
    exact ⟨line :: lines,.cons hline hlines,
      .cons ⟨got,a,b,c,d,port,msg.type,hgot,haddr,hrelayed.type_eq,htells⟩ hall⟩

lemma mem_of_mem_datagramsFor {dgram : Server.Datagram} {b : State} (h : dgram ∈ datagramsFor order k b es) :
    .datagram dgram ∈ es := by
  induction es generalizing b with
  | nil => exact absurd h List.not_mem_nil
  | cons e es ih =>
    rcases List.mem_append.mp h with h | h
    · refine List.mem_cons.mpr (.inl ?_)
      cases e with
      | datagram dgram' =>
        simp only [datagramFor] at h
        split at h
        · split_ifs at h
          · rw [List.mem_singleton.mp h]
          · exact absurd h List.not_mem_nil
        · exact absurd h List.not_mem_nil
      | _ => exact absurd h List.not_mem_nil
    · exact List.mem_cons_of_mem e (ih h)

end Datagrams

section Screens
variable {u w : Int32} {order : ByteOrder} {es : List Event} {t : List Server.Effect} {sys : System}

/-- The screen: in every proper run and for each subscriber, the messages that it handled are printed without a halt,
one line for each of the first datagrams that the broker had for it, in order, and each line tells what its datagram
encodes. When nothing is left to handle, these are all of them. -/
theorem screen_exact (run : ProperRun order u w es t sys) {k : ℕ} {c : Client} (hc : sys.clients[k]? = some c)
    {calls : List Incoming}
    (hcalls : calls.map Incoming.received = c.downstream.received.map fun msg => some (msg.bytes order))
    (hio : ∀ call ∈ calls, call.io = .ok) : ∃ out r dgrams,
      (Subscriber.machine order c.sub).steps () (calls.map .message) = ⟨out,r⟩ ∧ (r = .ok () ∨ r = .error .exit) ∧
      dgrams <+: datagramsFor order k .empty es ∧
      (c.downstream.pending = [] → dgrams = datagramsFor order k .empty es) ∧
      List.Forall₂ (Announces order) dgrams (printedLines out) := by
  have h := run_refines run
  have hp := h.peer_some hc
  obtain ⟨htold,-⟩ := Broker.State.foldl_streams hp
  have hsent : c.downstream.received ++ c.downstream.pending =
      Broker.State.toldBy Server.closeMsg ends k .empty (es.map (Event.brokerEvent order)) := htold
  have hcopies := @toldBy_copies u w order es k .empty fun e he => ProperRun.proper_of_mem run he
  rw [← hsent,List.filter_append] at hcopies
  -- the copies that were handled
  let handled := c.downstream.received.filter (!ends ·)
  have hfirst := List.forall₂_take handled.length hcopies
  rw [List.take_left] at hfirst
  obtain ⟨lines,hlines,hall⟩ := @exists_lines order _ _ hfirst
  have hlast : ∀ msg ∈ c.downstream.received.dropLast, msg.type ≠ closeSrvMsg := by
    intro msg hmsg
    have hmem : msg ∈ (c.downstream.received ++ c.downstream.pending).dropLast := by
      cases hpending : c.downstream.pending with
      | nil => rwa [List.append_nil]
      | cons m ms =>
        rw [List.dropLast_append_of_ne_nil (by simp)]
        exact List.mem_append_left _ (List.mem_of_mem_dropLast hmsg)
    simpa [ends] using (h.sound.peer (List.mem_of_getElem? hp)).ending_last hmem
  have hfilter : c.downstream.received.filter (·.type ≠ closeSrvMsg) = handled :=
    List.filter_congr fun msg _ => by simp [ends]
  obtain ⟨out,r,hsteps,hr,hprinted⟩ := @screen_steps order c.sub calls _ _ hcalls hio hlast (hfilter ▸ hlines)
  refine ⟨out,r,_,hsteps,hr,List.take_prefix handled.length _,fun hpending => ?_,hprinted ▸ hall⟩
  refine List.take_of_length_le ?_
  rw [hcopies.length_eq,hpending,List.filter_nil,List.append_nil]

/-- The text is published and the first subscriber handles it: it prints one line, which tells the text. -/
theorem screen_exact_example : ∃ t sys c,
    ProperRun .little 3 4 (exampleEvents ++ [helloEvent,.handle 0 (Buffer.zeroed _)]) t sys ∧
    sys.clients[0]? = some c ∧ ∃ out r line,
      (Subscriber.machine .little c.sub).steps () (c.downstream.received.map fun msg =>
        .message ⟨Buffer.zeroed _,some (msg.bytes .little),.ok⟩) = ⟨out,r⟩ ∧ printedLines out = [line] ∧
      Announces .little Server.helloDatagram line := by
  obtain ⟨t,sys,run,hP⟩ := @exists_proper_run (exampleEvents ++ [helloEvent,.handle 0 (Buffer.zeroed _)])
    (fun sys => sys.clients[0]?.any fun c => c.downstream.pending = []) (by decide +kernel)
  obtain ⟨c,hc,hpending⟩ := (Option.any_eq_true _ _).mp hP
  obtain ⟨out,r,dgrams,hsteps,-,-,hall,hlines⟩ := @screen_exact 3 4 .little _ t sys run 0 c hc
    (c.downstream.received.map fun msg => ⟨Buffer.zeroed _,some (msg.bytes .little),.ok⟩) (by simp) (by simp)
  obtain ⟨dgram,hdgram⟩ := List.length_eq_one_iff.mp (show (datagramsFor .little 0 .empty
    (exampleEvents ++ [helloEvent,.handle 0 (Buffer.zeroed _)])).length = 1 by decide +kernel)
  have hhello : dgram = Server.helloDatagram := by
    have hmem := mem_of_mem_datagramsFor (hdgram ▸ List.mem_singleton_self dgram)
    simpa [exampleEvents,helloEvent] using hmem
  rw [hall (of_decide_eq_true hpending),hdgram,hhello] at hlines
  obtain ⟨line,rest,hline,hnil,heq⟩ := List.forall₂_cons_left_iff.mp hlines
  cases hnil
  rw [List.map_map] at hsteps
  exact ⟨t,sys,c,run,hc,out,r,line,hsteps,heq,hline⟩

end Screens

end ClientServerApp.Network.Closed
