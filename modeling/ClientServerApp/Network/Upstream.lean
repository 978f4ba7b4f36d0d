import ClientServerApp.Server.Sessions
import ClientServerApp.Subscriber.Model
import ClientServerApp.Library.Framing

/-! The byte stream from a subscriber to the server: its id and then its commands. -/
namespace ClientServerApp.Network
open Traced Runs Framing SessionTable
open Server (Srv Orderly baseFds openFds tableAfter)

/-- A command of the subscriber. -/
inductive Command
  | subscribe (topic : List UInt8)
  | unsubscribe (topic : List UInt8)

namespace Command

def topic : Command → List UInt8
  | .subscribe topic => topic
  | .unsubscribe topic => topic

def word : Command → List UInt8
  | .subscribe _ => chars "subscribe"
  | .unsubscribe _ => chars "unsubscribe"

/-- The message that `update_subscriptions` sends. -/
def msg (c : Command) : SubMsg := Subscriber.commandMsg c.word c.topic

/-- The command as the session table sees it. -/
def sessionEvent (fd : Int32) : Command → SessionTable.Event (List UInt8) Int32 (List UInt8)
  | .subscribe topic => .subscribe fd topic
  | .unsubscribe topic => .unsubscribe fd topic

/-- The topic is a word over the alphabet that fits its field. -/
structure Proper (c : Command) : Prop where
  isTopic : IsTopic c.topic
  fits : c.topic.length ≤ maxTopicSize

lemma msg_topic {c : Command} (hfits : c.topic.length ≤ maxTopicSize) :
    c.msg.topic.toList = c.topic ++ List.replicate (maxTopicSize+1 - c.topic.length) 0 := by
  change ((Buffer.zeroed _).overwrite (c.topic ++ [0])).toList = _
  rw [Buffer.overwrite_toList _ (by simp; omega),Buffer.zeroed_toList,List.drop_replicate,List.append_assoc]
  congr 1
  have hsplit : maxTopicSize + 1 - c.topic.length = (maxTopicSize + 1 - (c.topic ++ [0]).length) + 1 := by
    simp
    omega
  rw [hsplit,List.replicate_succ]
  rfl

/-- The topic field holds the topic as a C string. -/
lemma msg_string {c : Command} (hfits : c.topic.length ≤ maxTopicSize) (hnul : 0 ∉ c.topic) :
    0 ∈ c.msg.topic.toList ∧ cString c.msg.topic.toList = c.topic := by
  rw [msg_topic hfits]
  obtain ⟨m,hm⟩ : ∃ m, maxTopicSize + 1 - c.topic.length = m+1 := ⟨maxTopicSize - c.topic.length,by omega⟩
  rw [hm,List.replicate_succ]
  refine ⟨by simp,?_⟩
  rw [cString_append_zero,cString_eq_self hnul]

lemma msg_orderly {c : Command} (h : c.Proper) :
    0 ∈ c.msg.topic.toList ∧ cString c.msg.topic.toList = c.topic :=
  msg_string h.fits (zero_not_mem_topic h.isTopic)

lemma msg_sessionEvent {c : Command} (h : c.Proper) (fd : Int32) :
    Server.SubMsg.sessionEvent fd c.msg = c.sessionEvent fd := by
  have htopic := (msg_orderly h).2
  cases c with
  | subscribe topic =>
    have htype : (subscribe topic).msg.type = subscribeSubMsg := rfl
    rw [Server.SubMsg.sessionEvent,htype,htopic]
    rfl
  | unsubscribe topic =>
    have hword : ¬ chars "unsubscribe" = chars "subscribe" := by decide
    have htype : (unsubscribe topic).msg.type = unsubscribeSubMsg := by
      simp only [msg,Subscriber.commandMsg,word]
      exact if_neg hword
    rw [Server.SubMsg.sessionEvent,htype,htopic]
    rfl

end Command

/-- Commands in order, when no `send` fails. -/
def commands (order : ByteOrder) : List Command → Subscriber.Action Unit
  | [] => pure ()
  | c :: cmds => do
    Subscriber.updateSubscriptions order .ok c.word [c.topic]
    commands order cmds

/-- The bytes that the subscriber sends: `connect_to_server`, then its commands. -/
def clientStream (order : ByteOrder) (sub : Subscriber.Sub) (cmds : List Command) : List UInt8 :=
  Subscriber.sentBytes (do Subscriber.connectToServer sub .ok; commands order cmds : Subscriber.Action Unit).out

section Stream
variable (order : ByteOrder) (sub : Subscriber.Sub)

/-- A command whose topic fits is sent as one message. -/
lemma updateSubscriptions_eq {c : Command} (h : c.topic.length ≤ maxTopicSize) :
    ∃ line, Subscriber.updateSubscriptions order .ok c.word [c.topic] =
      ⟨[.send (c.msg.bytes order),.print line],.ok ()⟩ := by
  rw [Subscriber.updateSubscriptions,if_neg (by omega)]
  exact ⟨_,rfl⟩

lemma sentBytes_append (t t' : List Subscriber.Effect) :
    Subscriber.sentBytes (t ++ t') = Subscriber.sentBytes t ++ Subscriber.sentBytes t' := List.flatMap_append

lemma clientStream_eq {cmds : List Command} (h : ∀ c ∈ cmds, c.topic.length ≤ maxTopicSize) :
    clientStream order sub cmds = sub.id ++ cmds.flatMap fun c => c.msg.bytes order := by
  have hcommands : Subscriber.sentBytes (commands order cmds).out = cmds.flatMap fun c => c.msg.bytes order := by
    induction cmds with
    | nil => rfl
    | cons c cmds ih =>
      obtain ⟨line,hc⟩ := updateSubscriptions_eq order (h c List.mem_cons_self)
      rw [commands,hc,mk_ok_bind,sentBytes_append,ih fun c' hc' => h c' (List.mem_cons_of_mem _ hc'),
        List.flatMap_cons]
      congr 1
      exact List.append_nil _
  rw [← hcommands]
  rfl

/-- The pieces of whole messages are the id and the messages. -/
lemma clientStream_whole {cmds : List Command} (h : ∀ c ∈ cmds, c.topic.length ≤ maxTopicSize) :
    (sub.id.length :: List.replicate cmds.length subMsgSize).splitLengths (clientStream order sub cmds) =
      sub.id :: cmds.map fun c => c.msg.bytes order := by
  rw [clientStream_eq order sub h,List.splitLengths_cons,List.take_left' rfl,List.drop_left' rfl,
    splitLengths_replicate (fun c : Command => c.msg.bytes order) fun c _ => c.msg.bytes_length order]

end Stream

/-- Handler calls of the server that read the pieces of the stream of a new connection, the first one
as the id, while all other calls succeed. -/
structure Arrives (pieces : List (List UInt8)) (conn : Server.Connection) (incomings : List Server.Incoming) :
    Prop where
  received : conn.received :: incomings.map Server.Incoming.received = pieces.map some
  setsockopt_ok : conn.setsockoptFails = false
  conn_io : conn.io = .ok
  io {i : Server.Incoming} : i ∈ incomings → i.io = .ok

def arrivalEvents (conn : Server.Connection) (incomings : List Server.Incoming) : List Server.Event :=
  .connection conn :: incomings.map (.message conn.fd)

/-- However the server is reached, whoever the client is and whatever it sends, as long as its id has `n`
bytes, is not connected yet and `k` commands follow, when the stream arrives in pieces of these lengths
the server registers the id on the new connection and executes exactly the commands. -/
def Establishes (order : ByteOrder) (lens : List ℕ) (n k : ℕ) : Prop :=
  ∀ u w es t srv, Run (Server.machine order u w) (Orderly order (baseFds u w)) es t srv →
  ∀ (sub : Subscriber.Sub) (cmds : List Command), sub.id.length = n → 0 ∉ sub.id →
    (∀ fd, ¬ (tableAfter order es).Holds sub.id fd) → cmds.length = k → (∀ c ∈ cmds, c.Proper) →
  ∀ conn incomings, conn.fd ≠ -1 → conn.fd ∉ openFds (baseFds u w) t →
    Arrives (lens.splitLengths (clientStream order sub cmds)) conn incomings →
  ∃ out srv', (Server.machine order u w).steps srv (arrivalEvents conn incomings) = ⟨out,.ok srv'⟩ ∧
    srv'.registry.Represents ((.connect sub.id conn.fd :: cmds.map (Command.sessionEvent conn.fd)).foldl
      Table.next (tableAfter order es))

section Whole
variable {order : ByteOrder} {fd : Int32} {incomings : List Server.Incoming} {cmds : List Command}
  (hreceived : incomings.map Server.Incoming.received = cmds.map fun c => some (c.msg.bytes order))
  (hcmds : ∀ c ∈ cmds, c.Proper)
include hreceived hcmds

lemma whole_orderly (hio : ∀ i ∈ incomings, i.io = .ok) (base : Finset Int32) :
    ∀ e ∈ incomings.map (Server.Event.message fd), ∀ t, Orderly order base t e := by
  intro e he t
  obtain ⟨i,hi,rfl⟩ := List.mem_map.mp he
  have hmem : i.received ∈ cmds.map fun c => some (c.msg.bytes order) := by
    rw [← hreceived]
    exact List.mem_map_of_mem hi
  obtain ⟨c,hc,hgot⟩ := List.mem_map.mp hmem
  obtain ⟨hnul,htopic⟩ := Command.msg_orderly (hcmds c hc)
  refine ⟨hio i hi,c.msg,hgot.symm,fun _ => ⟨hnul,?_⟩⟩
  rw [htopic]
  exact (hcmds c hc).isTopic

lemma whole_sessionEvents : (incomings.map (Server.Event.message fd)).map (Server.Event.sessionEvent order) =
    cmds.map (Command.sessionEvent fd) := by
  induction cmds generalizing incomings with
  | nil =>
    rw [List.map_eq_nil_iff.mp hreceived]
    rfl
  | cons c cmds ih =>
    obtain ⟨i,incomings,rfl,hgot,hrest⟩ := List.map_eq_cons_iff.mp hreceived
    have hevent : (Server.Event.message fd i).sessionEvent order = c.sessionEvent fd := by
      simp only [Server.Event.sessionEvent,hgot,Server.subMsg_whole]
      exact Command.msg_sessionEvent (hcmds c List.mem_cons_self) fd
    simp only [List.map_cons,hevent]
    rw [ih hrest fun c' hc' => hcmds c' (List.mem_cons_of_mem _ hc')]

end Whole

/-- Whole pieces are handled as the client means them. -/
theorem establishes_whole (order : ByteOrder) {n : ℕ} (hn : n ≤ maxIdSize) (k : ℕ) :
    Establishes order (n :: List.replicate k subMsgSize) n k := by
  rintro u w es t srv run sub cmds rfl hnul - rfl hcmds conn incomings hfd hnew harr
  have hpieces := harr.received
  rw [clientStream_whole order sub fun c hc => (hcmds c hc).fits,List.map_cons,List.map_map] at hpieces
  obtain ⟨hid,hreceived⟩ := List.cons_eq_cons.mp hpieces
  have hconn : Orderly order (baseFds u w) t (.connection conn) :=
    ⟨hfd,hnew,harr.setsockopt_ok,harr.conn_io,sub.id,hid,hn⟩
  obtain ⟨out,srv₁,hstep,run₁⟩ := Server.orderly_progress run hconn
  obtain ⟨out',srv',hsteps,run'⟩ := GuardedRun.steps
    (fun es t s e run (ho : ∀ t, Orderly order (baseFds u w) t e) => Server.orderly_progress run (ho t)) run₁
    (whole_orderly hreceived hcmds (fun i hi => harr.io hi) (baseFds u w))
  refine ⟨out ++ out',srv',?_,?_⟩
  · have hfirst : (Server.machine order u w).step srv (.connection conn) = ⟨out,.ok srv₁⟩ := hstep
    rw [arrivalEvents,steps_cons,hfirst,mk_ok_bind,hsteps]
  · have hrep := Server.orderly_represents run'
    have hevent : (Server.Event.connection conn).sessionEvent order = .connect sub.id conn.fd := by
      rw [Server.Event.sessionEvent,hid,Option.getD_some,cString_eq_self hnul]
    rw [tableAfter,Table.after,List.map_append,List.map_append,whole_sessionEvents hreceived hcmds,
      List.foldl_append,List.foldl_append,List.map_singleton,hevent] at hrep
    exact hrep

end ClientServerApp.Network
