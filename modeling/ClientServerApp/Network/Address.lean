import ClientServerApp.Subscriber.Framing
import ClientServerApp.Subscriber.Printing
import ClientServerApp.Server.Sent
import ClientServerApp.Server.Sessions

/-! The address of a publisher on its way through the server into the line that a subscriber prints. -/
namespace ClientServerApp.Network
open Server (SockAddr IsRelayed inetNtoa srvMsg helloBytes)
open Subscriber (found providerIp printMsg printIntMsg printShortRealMsg printFloatMsg printStringMsg)

/-- The address of a sender as `recvfrom` writes it, in network byte order. -/
def senderAddr (a b c d : UInt8) (port : UInt16) : SockAddr :=
  ⟨⟨[a,b,c,d],rfl⟩,⟨ByteOrder.big.store16 port,ByteOrder.big.store16_length port⟩⟩

/-- The text `a.b.c.d:port`. -/
def senderText (a b c d : UInt8) (port : UInt16) : List UInt8 :=
  decimal a.toNat ++ chars "." ++ decimal b.toNat ++ chars "." ++ decimal c.toNat ++ chars "." ++
    decimal d.toNat ++ chars ":" ++ decimal port.toNat

/-- The functions that print the messages of the publishers, with any rounding of quotients. -/
def printers (round : ℚ → ℚ) : List (ByteOrder → SrvMsg → Outcome (List UInt8)) :=
  [printIntMsg,printShortRealMsg round,printFloatMsg round,printStringMsg]

/-- The line starts with the text, up to the separator of the fields. -/
def StartsWith (text line : List UInt8) : Prop := ∃ rest, line = text ++ chars " - " ++ rest

section Text
variable (a b c d : UInt8) (port : UInt16)

lemma inetNtoa_text : inetNtoa ⟨[a,b,c,d],rfl⟩ ++ chars ":" ++ decimal port.toNat = senderText a b c d port := by
  simp [inetNtoa,senderText,List.intercalate,List.Vector.toList]

/-- The text determines the address, whatever comes behind it. -/
lemma senderText_inj {a' b' c' d' : UInt8} {u v : List UInt8}
    (h : senderText a b c d port ++ u = senderText a' b' c' d' port ++ v) : a = a' ∧ b = b' ∧ c = c' ∧ d = d' := by
  have hdot : chars "." = [chr '.'] := rfl
  have hcolon : chars ":" = [chr ':'] := rfl
  simp only [senderText,hdot,hcolon,List.append_assoc,List.singleton_append] at h
  have numeral : ∀ {x y : UInt8}, decimal x.toNat = decimal y.toNat → x = y :=
    fun hxy => UInt8.toNat_inj.mp (decimal_injective hxy)
  have nodot : ∀ n, chr '.' ∉ decimal n := not_mem_decimal (by decide)
  have nocolon : ∀ n, chr ':' ∉ decimal n := not_mem_decimal (by decide)
  obtain ⟨ha,h⟩ := (append_separator_inj (nodot _) (nodot _)).mp h
  obtain ⟨hb,h⟩ := (append_separator_inj (nodot _) (nodot _)).mp h
  obtain ⟨hc,h⟩ := (append_separator_inj (nodot _) (nodot _)).mp h
  obtain ⟨hd,-⟩ := (append_separator_inj (nocolon _) (nocolon _)).mp h
  exact ⟨numeral ha,numeral hb,numeral hc,numeral hd⟩

end Text

section Lines
variable {order : ByteOrder} {msg : SrvMsg}

/-- What the four functions print starts with the address in the message. -/
lemma printers_line {round : ℚ → ℚ} {print : ByteOrder → SrvMsg → Outcome (List UInt8)}
    (hprint : print ∈ printers round)
    {line : List UInt8} (hline : print order msg = .ok line) :
    StartsWith (providerIp order msg ++ chars ":" ++ decimal msg.providerPort.toNat) line := by
  have hmsg : ∀ {kind value}, printMsg order msg kind value = .ok line →
      StartsWith (providerIp order msg ++ chars ":" ++ decimal msg.providerPort.toNat) line := by
    intro kind value h
    cases htopic : readString msg.topic.toList with
    | error e =>
      rw [printMsg,htopic] at h
      cases h
    | ok topic =>
      rw [Subscriber.printMsg_ok htopic] at h
      exact ⟨_,(Except.ok.inj h).symm⟩
  simp only [printers,List.mem_cons,List.not_mem_nil,or_false] at hprint
  rcases hprint with rfl | rfl | rfl | rfl
  · obtain ⟨val,-,hval⟩ := Outcome.bind_eq_ok.mp hline
    exact hmsg hval
  · exact hmsg hline
  · exact hmsg hline
  · obtain ⟨data,-,hdata⟩ := Outcome.bind_eq_ok.mp hline
    exact hmsg hdata

end Lines

/-- The address in the relayed copy, as the subscriber shows it: a little-endian host has turned the four
bytes around. -/
lemma providerIp_relayed {order : ByteOrder} {a b c d : UInt8} {port : UInt16} {got : List UInt8} {msg : SrvMsg}
    (h : IsRelayed (senderAddr a b c d port) got msg) :
    providerIp order msg ++ chars ":" ++ decimal msg.providerPort.toNat = match order with
      | .big => senderText a b c d port
      | .little => senderText d c b a port := by
  have hip : ByteOrder.big.store32 msg.providerIp = [a,b,c,d] := by
    rw [h.ip_eq]
    exact ByteOrder.big.store32_load32 rfl
  have hport : msg.providerPort = port := by
    rw [h.port_eq]
    exact ByteOrder.big.load16_store16 port
  rw [hport]
  cases order with
  | big =>
    have hbytes : (⟨ByteOrder.big.store32 msg.providerIp,ByteOrder.big.store32_length _⟩ : Buffer 4) =
        ⟨[a,b,c,d],rfl⟩ := Subtype.ext hip
    rw [providerIp,hbytes]
    exact inetNtoa_text a b c d port
  | little =>
    have hturned : ByteOrder.little.store32 msg.providerIp = [d,c,b,a] := by
      change (ByteOrder.big.store32 msg.providerIp).reverse = _
      rw [hip]
      rfl
    have hbytes : (⟨ByteOrder.little.store32 msg.providerIp,ByteOrder.little.store32_length _⟩ : Buffer 4) =
        ⟨[d,c,b,a],rfl⟩ := Subtype.ext hturned
    rw [providerIp,hbytes]
    exact inetNtoa_text d c b a port

section Sender
variable {order : ByteOrder} {a b c d : UInt8} {port : UInt16} {got : List UInt8} {msg : SrvMsg}

/-- A relayed string is always printed. -/
lemma printStringMsg_ok (h : msg.Terminated) : ∃ line, printStringMsg order msg = .ok line := by
  rw [Subscriber.printStringMsg_eq (readString_ok h.data)]
  exact ⟨_,Subscriber.printMsg_ok (readString_ok h.topic)⟩

/-- The line of each of the four functions, for a relayed message that arrived whole, starts with the address of
the sender of the datagram exactly when the hosts are big-endian or the address is the same both ways. -/
theorem sender_shown_iff (round : ℚ → ℚ) (stack : Buffer udpMsgSize) (hgot : got.length ≤ udpMsgSize)
    (hmsg : srvMsg order (senderAddr a b c d port) (UdpMsg.ofBytes (stack.overwrite got)) got.length = .ok msg)
    (own : Buffer srvMsgSize) :
    (∀ print ∈ printers round, ∀ line, print order (found order own (msg.bytes order)) = .ok line →
      StartsWith (senderText a b c d port) line) ↔ order = .big ∨ (a = d ∧ b = c) := by
  have hrelayed := Server.srvMsg_copy order _ stack hgot hmsg
  have hshown := @providerIp_relayed order _ _ _ _ _ _ _ hrelayed
  rw [Subscriber.found_whole]
  constructor
  · intro hall
    cases order with
    | big => exact .inl rfl
    | little =>
      obtain ⟨line,hline⟩ := @printStringMsg_ok .little msg (hrelayed.terminated _ hgot)
      have hmem : printStringMsg ∈ printers round := by simp [printers]
      obtain ⟨rest,htext⟩ := hall _ hmem line hline
      obtain ⟨rest',hturned⟩ := printers_line hmem hline
      rw [hshown,htext,List.append_assoc,List.append_assoc] at hturned
      obtain ⟨had,hbc,-,-⟩ := senderText_inj a b c d port hturned
      exact .inr ⟨had,hbc⟩
  · intro hsame print hprint line hline
    have hstart := printers_line hprint hline
    rw [hshown] at hstart
    cases order with
    | big => exact hstart
    | little =>
      obtain ⟨rfl,rfl⟩ := hsame.resolve_left (by simp)
      exact hstart

end Sender

/-- The copy of that datagram and the line printed for it. -/
lemma exists_hello (order : ByteOrder) (a b c d : UInt8) (port : UInt16) : ∃ msg line,
    srvMsg order (senderAddr a b c d port) (UdpMsg.ofBytes ((Buffer.zeroed udpMsgSize).overwrite helloBytes))
        helloBytes.length = .ok msg ∧
      IsRelayed (senderAddr a b c d port) helloBytes msg ∧
      printStringMsg order (found order (Buffer.zeroed _) (msg.bytes order)) = .ok line := by
  have hlen : maxTopicSize+1 ≤ helloBytes.length ∧ helloBytes.length ≤ udpMsgSize := by decide +kernel
  obtain ⟨msg,hmsg,hrelayed⟩ := Server.srvMsg_relayed order (senderAddr a b c d port) (Buffer.zeroed _) hlen.1 hlen.2
  obtain ⟨line,hline⟩ := @printStringMsg_ok order msg (hrelayed.terminated _ hlen.2)
  exact ⟨msg,line,hmsg,hrelayed,by rw [Subscriber.found_whole,hline]⟩

/-- A sender whose address is the same both ways. -/
theorem sender_shown_palindrome : ∃ msg line,
    srvMsg .little (senderAddr 7 0 0 7 4573) (UdpMsg.ofBytes ((Buffer.zeroed udpMsgSize).overwrite helloBytes))
        helloBytes.length = .ok msg ∧
      printStringMsg .little (found .little (Buffer.zeroed _) (msg.bytes .little)) = .ok line ∧
      StartsWith (senderText 7 0 0 7 4573) line := by
  obtain ⟨msg,line,hmsg,-,hline⟩ := exists_hello .little 7 0 0 7 4573
  have hall := (sender_shown_iff Rounding.binary64 (Buffer.zeroed _) (by decide +kernel) hmsg
    (Buffer.zeroed _)).mpr (.inr ⟨rfl,rfl⟩)
  exact ⟨msg,line,hmsg,hline,hall _ (by simp [printers]) line hline⟩

/-- On little-endian hosts the line for a sender 127.0.0.1 shows 1.0.0.127. -/
theorem sender_localhost_reversed : ∃ msg line,
    srvMsg .little (senderAddr 127 0 0 1 4573) (UdpMsg.ofBytes ((Buffer.zeroed udpMsgSize).overwrite helloBytes))
        helloBytes.length = .ok msg ∧
      printStringMsg .little (found .little (Buffer.zeroed _) (msg.bytes .little)) = .ok line ∧
      StartsWith (senderText 1 0 0 127 4573) line ∧ ¬ StartsWith (senderText 127 0 0 1 4573) line := by
  obtain ⟨msg,line,hmsg,hrelayed,hline⟩ := exists_hello .little 127 0 0 1 4573
  have hstart := @printers_line _ _ Rounding.binary64 _ (by simp [printers]) _ hline
  rw [Subscriber.found_whole,@providerIp_relayed .little _ _ _ _ _ _ _ hrelayed] at hstart
  refine ⟨msg,line,hmsg,hline,hstart,?_⟩
  rintro ⟨rest,htext⟩
  obtain ⟨rest',hturned⟩ := hstart
  rw [htext,List.append_assoc,List.append_assoc] at hturned
  obtain ⟨hbyte,-⟩ := senderText_inj _ _ _ _ _ hturned
  exact absurd hbyte (by decide)

end ClientServerApp.Network
