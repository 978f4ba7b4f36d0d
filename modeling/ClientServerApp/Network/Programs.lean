import ClientServerApp.Network.Closed
import ClientServerApp.Subscriber.Framing

/-! A subscriber is a program of a broker: its pieces of bytes are requests and messages, and its handlers issue and
handle these. -/
namespace ClientServerApp.Network.Closed
open Traced

/-- A request of a subscriber and a message to it. -/
abbrev Request := Broker.Request (List UInt8)
abbrev Peer := Broker.Peer (List UInt8) (List UInt8) SrvMsg
abbrev State := Broker.State (List UInt8) (List UInt8) SrvMsg
abbrev BrokerEvent := Broker.Event (List UInt8) (List UInt8) SrvMsg

/-- A message ends the subscriber that handles it. -/
def ends (msg : SrvMsg) : Bool := msg.type = closeSrvMsg

section Requests

/-- The message of a request. -/
def requestMsg : Request → SubMsg
  | .subscribe topic => (Command.subscribe topic).msg
  | .unsubscribe topic => (Command.unsubscribe topic).msg
  | .close => ⟨closeSubMsg,Buffer.zeroed _⟩

/-- The request that the server finds in a whole message. -/
def request (order : ByteOrder) (bytes : List UInt8) : Request :=
  let msg := SubMsg.ofBytes order ((Buffer.zeroed _).overwrite bytes)
  if msg.type = unsubscribeSubMsg then .unsubscribe (cString msg.topic.toList)
  else if msg.type = subscribeSubMsg then .subscribe (cString msg.topic.toList)
  else .close

/-- The topic is a word over the alphabet that fits its field. -/
def IsRequest : Request → Prop
  | .subscribe topic => (Command.subscribe topic).Proper
  | .unsubscribe topic => (Command.unsubscribe topic).Proper
  | .close => True

/-- The request that a line makes the subscriber send. -/
def typed (line : List UInt8) : Option Request :=
  match tokens line with
  | [command] => if command = chars "exit" then some .close else none
  | [command,topic] =>
    if maxTopicSize < topic.length then none
    else if command = chars "subscribe" then some (.subscribe topic)
    else if command = chars "unsubscribe" then some (.unsubscribe topic)
    else none
  | _ => none

variable (order : ByteOrder)

lemma request_bytes {r : Request} (h : IsRequest r) : request order ((requestMsg r).bytes order) = r := by
  unfold request
  rw [Server.subMsg_whole]
  cases r with
  | subscribe topic =>
    have htype : (requestMsg (.subscribe topic)).type = subscribeSubMsg := rfl
    have htopic : cString (requestMsg (.subscribe topic)).topic.toList = topic := (Command.msg_orderly h).2
    simp only [htype,htopic]
    rfl
  | unsubscribe topic =>
    have htype : (requestMsg (.unsubscribe topic)).type = unsubscribeSubMsg := (Command.unsubscribe topic).msg_type
    have htopic : cString (requestMsg (.unsubscribe topic)).topic.toList = topic := (Command.msg_orderly h).2
    simp only [htype,htopic,if_true]
  | close => rfl

/-- The event of the session table for a request. -/
def sessionEvent (fd : Int32) : Request → SessionTable.Event (List UInt8) Int32 (List UInt8)
  | .subscribe topic => .subscribe fd topic
  | .unsubscribe topic => .unsubscribe fd topic
  | .close => .close fd

lemma requestMsg_sessionEvent {r : Request} (h : IsRequest r) (fd : Int32) :
    Server.SubMsg.sessionEvent fd (requestMsg r) = sessionEvent fd r := by
  cases r with
  | subscribe topic => exact Command.msg_sessionEvent h fd
  | unsubscribe topic => exact Command.msg_sessionEvent h fd
  | close => rfl

lemma requestMsg_topic {r : Request} (h : IsRequest r)
    (htype : (requestMsg r).type = subscribeSubMsg ∨ (requestMsg r).type = unsubscribeSubMsg) :
    0 ∈ (requestMsg r).topic.toList ∧ IsTopic (cString (requestMsg r).topic.toList) := by
  cases r with
  | subscribe topic =>
    obtain ⟨hnul,htopic⟩ := Command.msg_orderly h
    refine ⟨hnul,?_⟩
    change IsTopic (cString (Command.subscribe topic).msg.topic.toList)
    rw [htopic]
    exact h.isTopic
  | unsubscribe topic =>
    obtain ⟨hnul,htopic⟩ := Command.msg_orderly h
    refine ⟨hnul,?_⟩
    change IsTopic (cString (Command.unsubscribe topic).msg.topic.toList)
    rw [htopic]
    exact h.isTopic
  | close =>
    have hno : ¬ (closeSubMsg = subscribeSubMsg ∨ closeSubMsg = unsubscribeSubMsg) := by decide
    exact absurd htype hno

lemma requestMsg_close {r : Request} : (requestMsg r).type = closeSubMsg ↔ r = .close := by
  cases r with
  | subscribe topic =>
    have hne : subscribeSubMsg ≠ closeSubMsg := by decide
    exact iff_of_false hne (by simp)
  | unsubscribe topic =>
    have hne : (Command.unsubscribe topic).msg.type ≠ closeSubMsg := by
      rw [Command.msg_type]
      exact (by decide : unsubscribeSubMsg ≠ closeSubMsg)
    exact iff_of_false hne (by simp)
  | close => exact iff_of_true rfl rfl

end Requests

section Clients
variable (order : ByteOrder)

/-- The program that the broker sees. -/
def Client.peer (client : Client) : Peer where
  name := client.sub.id
  upstream := client.upstream.map (request order)
  downstream := client.downstream
  connected := client.serverFd.isSome
  running := client.running

/-- What the session table tells about the subscriber. -/
def Client.view (client : Client) : List UInt8 × Option Int32 := (client.sub.id,client.serverFd)

/-- The queues hold what the programs put there: whole requests, and messages that are printed or end the reader. -/
structure Client.Sound (client : Client) : Prop where
  fits : client.sub.id.length ≤ maxIdSize
  terminated : 0 ∉ client.sub.id
  requests {bytes : List UInt8} : bytes ∈ client.upstream.pending →
    ∃ r, IsRequest r ∧ bytes = (requestMsg r).bytes order
  messages {msg : SrvMsg} : msg ∈ client.downstream.pending → ends msg = false →
    Subscriber.Printable msg ∧ msg.Terminated

variable {order} {client : Client}

lemma mem_take {α : Type} {c : Channel α} {a : α} (h : a ∈ c.take.pending) : a ∈ c.pending := by
  unfold Channel.take at h
  split at h
  · exact h
  · rename_i heq
    rw [heq]
    exact List.mem_cons_of_mem _ h

lemma Client.Sound.send (h : client.Sound order) {r : Request} (hr : IsRequest r) :
    (client.send ((requestMsg r).bytes order)).Sound order where
  fits := h.fits
  terminated := h.terminated
  requests hb := by
    rcases List.mem_append.mp hb with hb | hb
    · exact h.requests hb
    · exact ⟨r,hr,List.mem_singleton.mp hb⟩
  messages := h.messages

lemma command_type_ne_close (c : Command) : c.type ≠ closeSubMsg := by
  cases c with
  | subscribe topic => exact (by decide : subscribeSubMsg ≠ closeSubMsg)
  | unsubscribe topic => exact (by decide : unsubscribeSubMsg ≠ closeSubMsg)

lemma typed_command {line : List UInt8} {c : Command} (htokens : tokens line = c.tokens)
    (hfits : c.topic.length ≤ maxTopicSize) :
    ∃ r, typed line = some r ∧ requestMsg r = c.msg ∧ (c.Proper → IsRequest r) := by
  have hwords : ¬ chars "unsubscribe" = chars "subscribe" := by decide
  have hlen := not_lt.mpr hfits
  cases c with
  | subscribe topic =>
    refine ⟨.subscribe topic,?_,rfl,id⟩
    rw [typed,htokens]
    exact (if_neg hlen).trans (if_pos rfl)
  | unsubscribe topic =>
    refine ⟨.unsubscribe topic,?_,rfl,id⟩
    rw [typed,htokens]
    exact (if_neg hlen).trans ((if_neg hwords).trans (if_pos rfl))

lemma typed_exit {line : List UInt8} (htokens : tokens line = [chars "exit"]) : typed line = some .close := by
  rw [typed,htokens]
  exact if_pos rfl

lemma typed_other {line : List UInt8}
    (hcommand : ∀ c : Command, tokens line = c.tokens → maxTopicSize < c.topic.length)
    (hexit : tokens line ≠ [chars "exit"]) : typed line = none := by
  unfold typed
  match htokens : tokens line with
  | [] => rfl
  | [command] =>
    refine if_neg ?_
    rintro rfl
    exact hexit htokens
  | [command,topic] =>
    simp only
    split_ifs with hlong hsubscribe hunsubscribe
    · rfl
    · exact absurd (hcommand (.subscribe topic) (by rw [htokens,hsubscribe]; rfl)) hlong
    · exact absurd (hcommand (.unsubscribe topic) (by rw [htokens,hunsubscribe]; rfl)) hlong
    · rfl
  | _ :: _ :: _ :: _ => rfl

lemma peer_send {r : Request} (hr : IsRequest r) :
    (client.send ((requestMsg r).bytes order)).peer order =
      { client.peer order with upstream := (client.peer order).upstream.push r } := by
  simp only [Client.peer,Client.send,Channel.map_push,request_bytes order hr]

/-- A line typed to a subscriber makes it the program that issued the request. -/
lemma type_peer (h : client.Sound order) {line : List UInt8} (hsubscribe : tokens line ≠ [chars "subscribe"])
    (hunsubscribe : tokens line ≠ [chars "unsubscribe"])
    (htopic : ∀ c : Command, tokens line = c.tokens → c.topic.length ≤ maxTopicSize → IsTopic c.topic) :
    ∃ client', client.type order line = .ok client' ∧ client'.Sound order ∧ client'.view = client.view ∧
      client'.peer order = (typed line).elim (client.peer order) (client.peer order).request := by
  by_cases hrun : client.running = true
  · have hpeer : (client.peer order).running = true := hrun
    have htype : client.type order line =
        client.after (Subscriber.handleStdinMsg order client.sub .ok (some line)) := if_pos hrun
    have hhandled : Handled order client.sub line := handled hsubscribe hunsubscribe
    rw [htype]
    cases hhandled with
    | command c htokens hfits =>
      obtain ⟨r,hr,hmsg,hproper⟩ := typed_command htokens hfits
      obtain ⟨hsends,hresult⟩ := handleStdinMsg_fits order client.sub htokens hfits
      have hrequest : IsRequest r := hproper ⟨htopic c htokens hfits,hfits⟩
      have hopen : r ≠ .close := by
        rintro rfl
        have hc := requestMsg_close.mpr (rfl : (Broker.Request.close : Request) = .close)
        rw [hmsg,Command.msg_type] at hc
        exact command_type_ne_close c hc
      refine ⟨client.send ((requestMsg r).bytes order),?_,h.send hrequest,rfl,?_⟩
      · rw [Client.after,hsends,hresult,hmsg]
        rfl
      · rw [hr,Option.elim_some,peer_send hrequest,Broker.Peer.request,if_pos hpeer]
        simp only [ne_eq,hopen,not_false_eq_true,decide_true,hpeer]
    | exit htokens =>
      have hexit := handleStdinMsg_exit order client.sub htokens
      have hclose : IsRequest (.close : Request) := trivial
      refine ⟨{ client.send ((requestMsg .close).bytes order) with running := false },?_,?_,rfl,?_⟩
      · rw [Client.after,hexit]
        rfl
      · exact ⟨h.fits,h.terminated,(h.send hclose).requests,h.messages⟩
      · rw [typed_exit htokens,Option.elim_some,Broker.Peer.request,if_pos hpeer]
        have hsend := @peer_send order client _ hclose
        change { (client.send ((requestMsg .close).bytes order)).peer order with running := false } = _
        rw [hsend]
        simp
    | other hcommand hexit herror =>
      obtain ⟨text,-,herror⟩ := herror
      refine ⟨client,?_,h,rfl,?_⟩
      · rw [Client.after,herror]
        rfl
      · rw [typed_other hcommand hexit]
        rfl
  · refine ⟨client,if_neg hrun,h,rfl,?_⟩
    cases typed line with
    | none => rfl
    | some r => exact (if_neg hrun).symm

/-- A subscriber handles a message as the program does. -/
lemma handle_peer (h : client.Sound order) (stack : Buffer srvMsgSize) : ∃ client',
    client.handle order stack = .ok client' ∧ client'.Sound order ∧ client'.view = client.view ∧
      client'.peer order = (client.peer order).deliver ends := by
  by_cases hrun : client.running = true
  · have hpeer : (client.peer order).running = true := hrun
    rw [Client.handle,if_pos hrun,Broker.Peer.deliver,if_pos hpeer]
    cases hpending : client.downstream.pending with
    | nil =>
      have hpending' : (client.peer order).downstream.pending = [] := hpending
      exact ⟨client,rfl,h,rfl,by rw [hpending']⟩
    | cons msg rest =>
      have hpending' : (client.peer order).downstream.pending = msg :: rest := hpending
      have hfound := Subscriber.found_whole order stack msg
      simp only [hpending']
      have hrest : ({ client with downstream := client.downstream.take } : Client).Sound order :=
        ⟨h.fits,h.terminated,h.requests,fun hm => h.messages (mem_take hm)⟩
      by_cases hends : msg.type = closeSrvMsg
      · have hclose : Subscriber.handleServerMsg order client.sub ⟨stack,some (msg.bytes order),.ok⟩ =
            ⟨[.handle .closeConnection msg,.close client.sub.sockFd],.error .exit⟩ := by
          rw [Subscriber.handleServerMsg_closes order client.sub rfl (by rwa [hfound]) rfl,hfound]
        refine ⟨{ client with downstream := client.downstream.take, running := false },?_,?_,rfl,?_⟩
        · rw [Client.after,hclose]
          rfl
        · exact ⟨hrest.fits,hrest.terminated,hrest.requests,hrest.messages⟩
        · have hends' : ends msg = true := by simp [ends,hends]
          rw [hends']
          rfl
      · have hends' : ends msg = false := by simp [ends,hends]
        obtain ⟨hprintable,hterm⟩ := h.messages (by rw [hpending]; exact List.mem_cons_self) hends'
        obtain ⟨line,hprints⟩ := @Subscriber.handleServerMsg_printable order client.sub
          ⟨stack,some (msg.bytes order),.ok⟩ _ rfl (by rwa [hfound]) (by rwa [hfound])
        refine ⟨{ client with downstream := client.downstream.take },?_,hrest,rfl,?_⟩
        · rw [Client.after,hprints]
          rfl
        · rw [hends']
          simp only [Client.peer,hrun,Bool.not_false]
  · exact ⟨client,if_neg hrun,h,rfl,(if_neg hrun).symm⟩

end Clients

end ClientServerApp.Network.Closed
