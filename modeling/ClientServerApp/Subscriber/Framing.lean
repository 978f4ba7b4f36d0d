import ClientServerApp.Subscriber.Model
import ClientServerApp.Subscriber.Numbers
import ClientServerApp.Library.Framing

/-! The messages that the subscriber makes of the byte stream of its connection. Each `recv` is taken
for one message, so they are those of the server exactly when every `recv` returns a whole one. -/
namespace ClientServerApp.Subscriber
open Traced Runs Framing

/-- The messages that successive calls of `handle_server_msg` process. -/
def processed (order : ByteOrder) (sub : Sub) (calls : List Incoming) : List SrvMsg :=
  handled ((machine order sub).steps () (calls.map .message)).out

/-- The message neither closes the connection nor has an integer that cannot be negated. -/
structure Printable (msg : SrvMsg) : Prop where
  not_closing : msg.type ≠ closeSrvMsg
  negatable : msg.type = intSrvMsg → ¬ Unnegatable msg.data

instance (msg : SrvMsg) : Decidable (Printable msg) :=
  decidable_of_iff (msg.type ≠ closeSrvMsg ∧ (msg.type = intSrvMsg → ¬ Unnegatable msg.data))
    ⟨fun h => ⟨h.1,h.2⟩,fun h => ⟨h.not_closing,h.negatable⟩⟩

lemma handled_append (t t' : List Effect) : handled (t ++ t') = handled t ++ handled t' := List.filterMap_append

lemma branch_eq_close_iff (type : UInt8) : branch type = .closeConnection ↔ type = closeSrvMsg := by
  unfold branch
  split_ifs with h₁ h₂ h₃ h₄ h₅
  · simp [h₁,intSrvMsg,closeSrvMsg]
  · simp [h₂,shortRealSrvMsg,closeSrvMsg]
  · simp [h₃,floatSrvMsg,closeSrvMsg]
  · simp [h₄,stringSrvMsg,closeSrvMsg]
  · simp [h₅]
  · simp [h₅]

lemma branch_eq_int_iff (type : UInt8) : branch type = .printIntMsg ↔ type = intSrvMsg := by
  unfold branch
  split_ifs with h₁ h₂ h₃ h₄ h₅
  · simp [h₁]
  all_goals simp [h₁]

section Lines
variable {order : ByteOrder} {msg : SrvMsg}

/-- A printable message has a line when its strings end inside their fields. -/
lemma Printable.line (h : Printable msg) (hterm : msg.Terminated) :
    ∃ line, lineOf order msg (branch msg.type) = .ok line := by
  have htopic := readString_ok hterm.topic
  have hdata := readString_ok hterm.data
  have hprint : ∀ kind value, ∃ line, printMsg order msg kind value = .ok line := fun _ _ => ⟨_,printMsg_ok htopic⟩
  cases hbranch : branch msg.type with
  | printIntMsg =>
    obtain ⟨magnitude,hpayload⟩ := exists_intPayload msg.data
    have hshown := printIntMsg_shown order hpayload (h.negatable ((branch_eq_int_iff _).mp hbranch))
    obtain ⟨line,hline⟩ := hprint "INT" (signedDecimal (intShown (msg.data.get 0) magnitude))
    exact ⟨line,hshown.trans hline⟩
  | printShortRealMsg => exact hprint _ _
  | printFloatMsg => exact hprint _ _
  | printStringMsg =>
    obtain ⟨line,hline⟩ := hprint "STRING" (cString msg.data.toList)
    exact ⟨line,(printStringMsg_eq hdata).trans hline⟩
  | closeConnection => exact ⟨[],rfl⟩
  | invalidRecvMsg => exact ⟨_,printInvalidMsg_ok htopic hdata⟩

/-- Any other message closes the connection or has no line. -/
lemma lineOf_undefined (h : ¬ Printable msg) (hopen : msg.type ≠ closeSrvMsg) :
    lineOf order msg (branch msg.type) = .error .undefined := by
  have hint : msg.type = intSrvMsg ∧ Unnegatable msg.data := by
    by_contra hno
    exact h ⟨hopen,fun htype hdata => hno ⟨htype,hdata⟩⟩
  rw [(branch_eq_int_iff _).mpr hint.1]
  exact printIntMsg_undefined order hint.2

end Lines

section Call
variable (order : ByteOrder) (sub : Sub) {call : Incoming} {got line : List UInt8}

/-- The message that the handler finds in its buffer. -/
def found (stack : Buffer srvMsgSize) (got : List UInt8) : SrvMsg := SrvMsg.ofBytes order (stack.overwrite got)

lemma found_whole (stack : Buffer srvMsgSize) (msg : SrvMsg) : found order stack (msg.bytes order) = msg := by
  rw [found,stack.overwrite_full (msg.bytes_length order),msg.ofBytes_bytes]

variable (hgot : call.received = some got)
include hgot

/-- A message that closes the connection ends the subscriber. -/
lemma handleServerMsg_close (hclose : (found order call.stack got).type = closeSrvMsg) :
    handleServerMsg order sub call = (emit (.handle .closeConnection (found order call.stack got)) >>= fun _ =>
      close sub call.io >>= fun _ => halt .exit) := by
  have hbranch : branch (found order call.stack got).type = .closeConnection := (branch_eq_close_iff _).mpr hclose
  rw [found] at hbranch ⊢
  simp only [handleServerMsg,hgot,hbranch,if_true]

lemma handleServerMsg_closes (hclose : (found order call.stack got).type = closeSrvMsg) (hio : call.io = .ok) :
    handleServerMsg order sub call =
      ⟨[.handle .closeConnection (found order call.stack got),.close sub.sockFd],.error .exit⟩ := by
  rw [handleServerMsg_close order sub hgot hclose,hio]
  rfl

/-- Any other message is printed when it has a line. -/
lemma handleServerMsg_open (hopen : (found order call.stack got).type ≠ closeSrvMsg) :
    handleServerMsg order sub call = (emit (.handle (branch (found order call.stack got).type)
        (found order call.stack got)) >>= fun _ =>
      lift (lineOf order (found order call.stack got) (branch (found order call.stack got).type)) >>= fun line =>
        emit (.print line)) := by
  have hbranch : ¬ branch (found order call.stack got).type = .closeConnection :=
    fun h => hopen ((branch_eq_close_iff _).mp h)
  rw [found] at hbranch ⊢
  simp only [handleServerMsg,hgot,if_neg hbranch]

/-- Every call enters the switch once. -/
lemma handleServerMsg_handles : ∃ t r, handleServerMsg order sub call =
    ⟨.handle (branch (found order call.stack got).type) (found order call.stack got) :: t,r⟩ ∧ handled t = [] := by
  by_cases hclose : (found order call.stack got).type = closeSrvMsg
  · rw [handleServerMsg_close order sub hgot hclose,(branch_eq_close_iff _).mpr hclose,close]
    split_ifs
    · exact ⟨[],_,rfl,rfl⟩
    · exact ⟨[.close sub.sockFd],_,rfl,rfl⟩
  · rw [handleServerMsg_open order sub hgot hclose]
    cases lineOf order (found order call.stack got) (branch (found order call.stack got).type) with
    | error e => exact ⟨[],.error e,rfl,rfl⟩
    | ok line => exact ⟨[.print line],.ok (),rfl,rfl⟩

/-- A message that is not printable ends the subscriber. -/
lemma handleServerMsg_ends (hlast : ¬ Printable (found order call.stack got)) :
    ∃ e, (handleServerMsg order sub call).result = .error e := by
  by_cases hclose : (found order call.stack got).type = closeSrvMsg
  · rw [handleServerMsg_close order sub hgot hclose,close]
    split_ifs
    · exact ⟨_,rfl⟩
    · exact ⟨_,rfl⟩
  · rw [handleServerMsg_open order sub hgot hclose,lineOf_undefined hlast hclose]
    exact ⟨_,rfl⟩

/-- A line is printed. -/
lemma handleServerMsg_prints (hopen : (found order call.stack got).type ≠ closeSrvMsg)
    (hline : lineOf order (found order call.stack got) (branch (found order call.stack got).type) = .ok line) :
    handleServerMsg order sub call =
      ⟨[.handle (branch (found order call.stack got).type) (found order call.stack got),.print line],.ok ()⟩ := by
  rw [handleServerMsg_open order sub hgot hopen,hline]
  rfl

/-- A printable message is printed when its strings end inside their fields. -/
lemma handleServerMsg_printable (h : Printable (found order call.stack got))
    (hterm : (found order call.stack got).Terminated) : ∃ line, handleServerMsg order sub call =
      ⟨[.handle (branch (found order call.stack got).type) (found order call.stack got),.print line],.ok ()⟩ := by
  obtain ⟨line,hline⟩ := @Printable.line order _ h hterm
  exact ⟨line,handleServerMsg_prints order sub hgot h.not_closing hline⟩

end Call

section Processed
variable (order : ByteOrder) (sub : Sub) {call : Incoming} {calls : List Incoming} {got : List UInt8}

@[simp] lemma processed_nil : processed order sub [] = [] := rfl

variable (hgot : call.received = some got)
include hgot

/-- Every call processes the message that it finds. -/
lemma processed_cons_head : ∃ rest, processed order sub (call :: calls) = found order call.stack got :: rest := by
  obtain ⟨t,r,hrun,ht⟩ := handleServerMsg_handles order sub hgot
  cases r with
  | error e =>
    refine ⟨handled t,?_⟩
    simp only [processed,List.map_cons,steps_cons,machine,step,hrun,mk_error_bind]
    rfl
  | ok u =>
    refine ⟨handled t ++ processed order sub calls,?_⟩
    simp only [processed,List.map_cons,steps_cons,machine,step,hrun,mk_ok_bind,handled_append]
    rfl

/-- After a message that is not printable nothing is processed. -/
lemma processed_cons_last (hlast : ¬ Printable (found order call.stack got)) :
    processed order sub (call :: calls) = [found order call.stack got] := by
  obtain ⟨t,r,hrun,ht⟩ := handleServerMsg_handles order sub hgot
  obtain ⟨e,he⟩ := handleServerMsg_ends order sub hgot hlast
  rw [hrun] at he
  obtain rfl : r = .error e := he
  simp only [processed,List.map_cons,steps_cons,machine,step,hrun,mk_error_bind]
  exact congrArg (List.cons _) ht

lemma processed_cons_printable (h : Printable (found order call.stack got))
    (hterm : (found order call.stack got).Terminated) :
    processed order sub (call :: calls) = found order call.stack got :: processed order sub calls := by
  obtain ⟨line,hrun⟩ := handleServerMsg_printable order sub hgot h hterm
  simp only [processed,List.map_cons,steps_cons,machine,step,hrun,mk_ok_bind,handled_append]
  rfl

end Processed

section Stream
variable (order : ByteOrder) (sub : Sub) {chunk : List UInt8} {chunks : List (List UInt8)} {msg : SrvMsg}
  {msgs : List SrvMsg}

/-- When the `recv` calls return the chunks, the subscriber processes these messages, whatever its buffer
held before each call. -/
def Delivers (chunks : List (List UInt8)) (msgs : List SrvMsg) : Prop :=
  ∀ calls, calls.map Incoming.received = chunks.map some → processed order sub calls = msgs

/-- Calls whose `recv` results are the chunks, over buffers full of one byte. -/
def callsOver (b : UInt8) (chunks : List (List UInt8)) : List Incoming :=
  chunks.map fun chunk => ⟨Buffer.filled _ b,some chunk,.ok⟩

lemma callsOver_received (b : UInt8) (chunks : List (List UInt8)) :
    (callsOver b chunks).map Incoming.received = chunks.map some := by
  simp [callsOver]

/-- What a short read leaves of the buffer shows in the last byte of the message. -/
lemma found_last_of_short (hshort : chunk.length < srvMsgSize) (stack : Buffer srvMsgSize) :
    (found order stack chunk).data.toList[maxDataSize]? = stack.toList[srvMsgSize-1]? := by
  have := sizes
  change (((stack.overwrite chunk).toList.drop 58).take 1501)[1500]? = _
  rw [stack.overwrite_toList hshort.le,List.getElem?_take_of_lt (by omega),List.getElem?_drop,
    List.getElem?_append_right (by omega),List.getElem?_drop]
  congr 1
  omega

variable {order sub}

/-- A first chunk that yields one message over every buffer is a whole message. -/
lemma Delivers.length_eq (h : Delivers order sub (chunk :: chunks) (msg :: msgs)) (hle : chunk.length ≤ srvMsgSize) :
    chunk.length = srvMsgSize := by
  by_contra hne
  have hlast : ∀ b : UInt8, msg.data.toList[maxDataSize]? = some b := by
    intro b
    obtain ⟨rest,hrest⟩ := @processed_cons_head order sub ⟨Buffer.filled _ b,some chunk,.ok⟩
      (callsOver b chunks) _ rfl
    have hmsgs := h (callsOver b (chunk :: chunks)) (callsOver_received b _)
    rw [← (List.cons_eq_cons.mp (hrest.symm.trans hmsgs)).1,
      found_last_of_short order (lt_of_le_of_ne hle hne),Buffer.filled_toList]
    exact List.getElem?_replicate_of_lt (by decide)
  have habs := (hlast 0).symm.trans (hlast 1)
  simp at habs

/-- After a message that is not printable no other is processed. -/
lemma delivers_cons_last (hlast : ¬ Printable msg) :
    Delivers order sub (msg.bytes order :: chunks) (msg :: msgs) ↔ msgs = [] := by
  have hone : ∀ calls, calls.map Incoming.received = (msg.bytes order :: chunks).map some →
      processed order sub calls = [msg] := by
    intro calls hcalls
    obtain ⟨call,calls,rfl,hgot,-⟩ := List.map_eq_cons_iff.mp hcalls
    rw [processed_cons_last order sub hgot (by rwa [found_whole]),found_whole]
  constructor
  · intro h
    have hcalls := callsOver_received 0 (msg.bytes order :: chunks)
    exact (List.cons_eq_cons.mp ((h _ hcalls).symm.trans (hone _ hcalls))).2
  · rintro rfl
    exact hone

/-- A printable message is processed and the next ones after it. -/
lemma delivers_cons_printable (h : Printable msg) (hterm : msg.Terminated) :
    Delivers order sub (msg.bytes order :: chunks) (msg :: msgs) ↔ Delivers order sub chunks msgs := by
  have hcons : ∀ call calls, call.received = some (msg.bytes order) →
      processed order sub (call :: calls) = msg :: processed order sub calls := by
    intro call calls hgot
    rw [processed_cons_printable order sub hgot (by rwa [found_whole]) (by rwa [found_whole]),found_whole]
  constructor
  · intro hdelivers calls hcalls
    have hall := hdelivers (⟨Buffer.filled _ 0,some (msg.bytes order),.ok⟩ :: calls) (by simp [hcalls])
    rw [hcons _ _ rfl] at hall
    exact (List.cons_eq_cons.mp hall).2
  · intro hdelivers calls hcalls
    obtain ⟨call,calls,rfl,hgot,hcalls⟩ := List.map_eq_cons_iff.mp hcalls
    rw [hcons _ _ hgot,hdelivers calls hcalls]

/-- The messages of the stream are delivered exactly when every `recv` returns a whole one and each but
the last is printable. -/
lemma delivers_iff (hcut : Cut srvMsgSize (msgs.flatMap (SrvMsg.bytes order)) chunks)
    (hterm : ∀ m ∈ msgs, m.Terminated) : Delivers order sub chunks msgs ↔
      (∀ chunk ∈ chunks, chunk.length = srvMsgSize) ∧ ∀ m ∈ msgs.dropLast, Printable m := by
  induction chunks generalizing msgs with
  | nil =>
    have hmsgs : msgs = [] := by
      cases msgs with
      | nil => rfl
      | cons msg msgs => exact absurd (Cut.nil_iff.mp hcut) (by simp [SrvMsg.bytes])
    subst hmsgs
    simp [Delivers]
  | cons chunk chunks ih =>
    cases msgs with
    | nil => exact absurd hcut.eq_nil (by simp)
    | cons msg msgs =>
      have hterm' : ∀ m ∈ msgs, m.Terminated := fun m hm => hterm m (List.mem_cons_of_mem _ hm)
      rw [List.flatMap_cons] at hcut
      -- on either side the first chunk is the first message
      suffices hwhole : chunk.length = srvMsgSize → (Delivers order sub (chunk :: chunks) (msg :: msgs) ↔
          (∀ c ∈ chunk :: chunks, c.length = srvMsgSize) ∧ ∀ m ∈ (msg :: msgs).dropLast, Printable m) by
        constructor
        · intro h
          exact (hwhole (h.length_eq (hcut.le List.mem_cons_self))).mp h
        · intro h
          exact (hwhole (h.1 chunk List.mem_cons_self)).mpr h
      intro hfull
      obtain ⟨rfl,hcut'⟩ := hcut.of_length_eq (hfull.trans (msg.bytes_length order).symm)
      by_cases hprintable : Printable msg
      · rw [delivers_cons_printable hprintable (hterm msg List.mem_cons_self),ih hcut' hterm']
        cases msgs with
        | nil => simp
        | cons msg' msgs => simp [hprintable]
      · rw [delivers_cons_last hprintable]
        cases msgs with
        | nil =>
          rw [hcut'.eq_nil]
          simp
        | cons msg' msgs => simp [hprintable]

end Stream

end ClientServerApp.Subscriber
