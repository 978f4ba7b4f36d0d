import ClientServerApp.Subscriber.Framing
import ClientServerApp.Server.PollPass
import ClientServerApp.Library.Stopping

/-! The loop of `main` in the subscriber, whatever it is typed and whatever it receives: a round is the handler calls
for the entries of the poll array that are ready, and the socket is closed last. -/
namespace ClientServerApp.Subscriber
open Traced Runs
open Server (Pollfd pollin)

section Loop
variable (order : ByteOrder) (sub : Sub)

/-- The array `pfds` of `sub_t`. -/
structure Pfds where
  stdin : Pollfd
  server : Pollfd

/-- `init_poll_fds` clears the flags of the first entry twice and leaves those of the second. -/
def initPollFds (revents : UInt16) : Pfds := ⟨⟨0,pollin,0⟩,⟨sub.sockFd,pollin,revents⟩⟩

/-- What one call of `poll` reports and what the calls of the handlers then return. -/
structure Wakeup where
  stdin : UInt16
  server : UInt16
  io : Io
  line : Option (List UInt8)
  incoming : Incoming

/-- `poll` writes into both entries. -/
def Pfds.poll (pfds : Pfds) (wake : Wakeup) : Pfds :=
  ⟨{ pfds.stdin with revents := wake.stdin },{ pfds.server with revents := wake.server }⟩

/-- `main` looks at the entry of stdin. -/
def onStdin (pfds : Pfds) (wake : Wakeup) : Action Pfds :=
  if pfds.stdin.ready then do
    handleStdinMsg order sub wake.io wake.line
    pure { pfds with stdin := { pfds.stdin with revents := 0 } }
  else pure pfds

/-- `main` looks at the entry of the server. -/
def onServer (pfds : Pfds) (wake : Wakeup) : Action Pfds :=
  if pfds.server.ready then do
    handleServerMsg order sub wake.incoming
    pure { pfds with server := { pfds.server with revents := 0 } }
  else pure pfds

/-- A round of the loop. -/
def mainRound (pfds : Pfds) (wake : Wakeup) : Action Pfds := do
  let pfds ← onStdin order sub (pfds.poll wake) wake
  onServer order sub pfds wake

/-- The loop after `init_poll_fds`, with any flags left in the second entry. -/
def mainLoop (revents : UInt16) : Machine Pfds Wakeup Halt Effect where
  init := initPollFds sub revents
  step := mainRound order sub

/-- `poll` found something to read. -/
def finds (revents : UInt16) : Bool := revents &&& pollin ≠ 0

/-- The handler calls of a round: the line comes before the message. -/
def Wakeup.events (wake : Wakeup) : List Event :=
  (if finds wake.stdin then [.command wake.io wake.line] else []) ++
  if finds wake.server then [.message wake.incoming] else []

variable {order sub}

lemma onStdin_map (pfds : Pfds) (wake : Wakeup) : (onStdin order sub pfds wake).map (fun _ => ()) =
    (machine order sub).steps () (if pfds.stdin.ready then [.command wake.io wake.line] else []) := by
  rw [onStdin]
  split_ifs
  · rw [Traced.map_bind]
    rfl
  · rfl

lemma onServer_map (pfds : Pfds) (wake : Wakeup) : (onServer order sub pfds wake).map (fun _ => ()) =
    (machine order sub).steps () (if pfds.server.ready then [.message wake.incoming] else []) := by
  rw [onServer]
  split_ifs
  · rw [Traced.map_bind]
    rfl
  · rfl

lemma onStdin_server {pfds pfds' : Pfds} {wake : Wakeup} {out : List Effect}
    (h : onStdin order sub pfds wake = ⟨out,.ok pfds'⟩) : pfds'.server = pfds.server := by
  rw [onStdin] at h
  split_ifs at h
  · obtain ⟨_,_,_,-,hpure,-⟩ := bind_eq_ok.mp h
    cases hpure
    rfl
  · cases h
    rfl

/-- A round is the sequence of its handler calls, whatever the poll array held before. -/
lemma mainRound_eq_steps (pfds : Pfds) (wake : Wakeup) : (mainRound order sub pfds wake).map (fun _ => ()) =
    (machine order sub).steps () wake.events := by
  have hstdin : (machine order sub).steps () (if finds wake.stdin then [.command wake.io wake.line] else []) =
      (onStdin order sub (pfds.poll wake) wake).map fun _ => () :=
    (onStdin_map (pfds.poll wake) wake).symm
  rw [mainRound,Wakeup.events,steps_concat,Traced.map_bind,hstdin,bind_map]
  refine Traced.bind_congr fun out pfds' hrun => ?_
  rw [onServer_map,onStdin_server hrun]
  rfl

/-- The loop is the sequence of the handler calls of its rounds. -/
lemma mainLoop_eq_steps (revents : UInt16) (pfds : Pfds) (wakes : List Wakeup) :
    ((mainLoop order sub revents).steps pfds wakes).map (fun _ => ()) =
      (machine order sub).steps () (wakes.flatMap Wakeup.events) := by
  induction wakes generalizing pfds with
  | nil => rfl
  | cons wake wakes ih =>
    rw [steps_cons,Traced.map_bind,List.flatMap_cons,steps_concat,← mainRound_eq_steps pfds wake,bind_map]
    exact Traced.bind_congr fun _ pfds' _ => ih pfds'

end Loop

section Safety
variable {order : ByteOrder} {sub : Sub} {α β : Type}

/-- What is sent is a whole request of one of the three types whose topic ends in its field. -/
def Polite (order : ByteOrder) : Effect → Prop
  | .send bytes => ∃ msg : SubMsg, bytes = msg.bytes order ∧
      msg.type ∈ [subscribeSubMsg,unsubscribeSubMsg,closeSubMsg] ∧ 0 ∈ msg.topic.toList
  | _ => True

/-- The computation sends requests only, and it closes the socket once, as its last effect, exactly when it exits. -/
structure Orderly (order : ByteOrder) (sub : Sub) (x : Action α) : Prop where
  polite : Emits (Polite order) x
  open_of_ne : x.result ≠ .error .exit → ∀ fd, .close fd ∉ x.out
  closed_of_exit : x.result = .error .exit → ∃ pre, x.out = pre ++ [.close sub.sockFd] ∧ ∀ fd, .close fd ∉ pre

namespace Orderly

lemma pure (a : α) : Orderly order sub (pure a : Action α) where
  polite := .pure a
  open_of_ne _ _ := List.not_mem_nil
  closed_of_exit h := by cases h

lemma halt {e : Halt} (he : e ≠ .exit) : Orderly order sub (halt e : Action α) where
  polite := .halt e
  open_of_ne _ _ := List.not_mem_nil
  closed_of_exit h := absurd (Except.error.inj h) he

lemma emit {effect : Effect} (hpolite : Polite order effect) (hopen : ∀ fd, effect ≠ .close fd) :
    Orderly order sub (emit effect : Action Unit) where
  polite := .emit hpolite
  open_of_ne _ fd h := hopen fd (List.mem_singleton.mp h).symm
  closed_of_exit h := by cases h

/-- What goes on after a part that has not exited. -/
lemma bind {x : Action α} {f : α → Action β} (hx : Orderly order sub x) (hf : ∀ a, Orderly order sub (f a)) :
    Orderly order sub (x >>= f) := by
  rcases x with ⟨out,e | a⟩
  · exact ⟨hx.polite,fun h => hx.open_of_ne fun he => h (congrArg Except.error (Except.error.inj he)),
      fun h => hx.closed_of_exit (congrArg Except.error (Except.error.inj h))⟩
  · have hout : ∀ fd, .close fd ∉ out := hx.open_of_ne (by simp)
    refine ⟨hx.polite.bind fun a => (hf a).polite,fun h fd hfd => ?_,fun h => ?_⟩
    · rcases List.mem_append.mp hfd with hfd | hfd
      · exact hout fd hfd
      · exact (hf a).open_of_ne h fd hfd
    · obtain ⟨pre,hpre,hopen⟩ := (hf a).closed_of_exit h
      refine ⟨out ++ pre,?_,fun fd hfd => ?_⟩
      · change out ++ (f a).out = _
        rw [hpre,List.append_assoc]
      · rcases List.mem_append.mp hfd with hfd | hfd
        · exact hout fd hfd
        · exact hopen fd hfd

lemma lift_bind {x : Outcome α} {f : α → Action β} (hx : x ≠ .error .exit) (hf : ∀ a, Orderly order sub (f a)) :
    Orderly order sub (lift x >>= f) := by
  cases x with
  | ok a => exact hf a
  | error e => exact .halt fun he => hx (congrArg Except.error he)

lemma send {msg : SubMsg} (htype : msg.type ∈ [subscribeSubMsg,unsubscribeSubMsg,closeSubMsg])
    (hnul : 0 ∈ msg.topic.toList) (io : Io) : Orderly order sub (send io (msg.bytes order)) := by
  rw [Subscriber.send]
  split_ifs
  · exact .halt (by simp)
  · exact .emit ⟨msg,rfl,htype,hnul⟩ (by simp)

lemma print (line : List UInt8) : Orderly order sub (Traced.emit (.print line)) := .emit trivial (by simp)

/-- The end of the program. -/
lemma closing (io : Io) : Orderly order sub (close sub io >>= fun _ => Traced.halt .exit : Action α) := by
  rw [close]
  split_ifs
  · exact .halt (by simp)
  · exact ⟨(Emits.emit trivial).bind fun _ => .halt _,fun h => absurd rfl h,
      fun _ => ⟨[],rfl,fun _ => List.not_mem_nil⟩⟩

/-- A sequence of steps. -/
lemma steps {S E : Type} {M : Machine S E Halt Effect} (h : ∀ s e, Orderly order sub (M.step s e)) (s : S)
    (es : List E) : Orderly order sub (M.steps s es) := by
  induction es generalizing s with
  | nil => exact .pure s
  | cons e es ih => exact (h s e).bind fun s' => ih s'

end Orderly

section Lines
open Stopping

/-- Undefined behaviour is all that stops a function that prints. -/
lemma lineOf_unless (msg : SrvMsg) (b : Branch) : Unless (· = .undefined) (fun _ => True) (lineOf order msg b) := by
  have hread : ∀ l, Unless (· = .undefined) (fun _ => True) (readString l) := by
    intro l
    rw [readString]
    split_ifs
    · exact .ok rfl trivial
    · exact .error rfl rfl
  have hprint : ∀ kind value, Unless (· = .undefined) (fun _ => True) (printMsg order msg kind value) :=
    fun kind value => (hread _).bind fun topic _ => .ok rfl trivial
  cases b with
  | printIntMsg =>
    have hsigned : ∀ (sign : UInt8) val, Unless (· = .undefined) (fun _ => True)
        (if sign = 0 then (pure val : Outcome Int32) else negInt val) := by
      intro sign val
      unfold negInt
      split_ifs
      · exact .ok rfl trivial
      · exact .error rfl rfl
      · exact .ok rfl trivial
    exact (hsigned _ _).bind fun val _ => hprint _ _
  | printShortRealMsg => exact hprint _ _
  | printFloatMsg => exact hprint _ _
  | printStringMsg => exact (hread _).bind fun data _ => hprint _ _
  | closeConnection => exact .ok rfl trivial
  | invalidRecvMsg => exact (hread _).bind fun topic _ => (hread _).bind fun data _ => .ok rfl trivial

lemma lineOf_ne_exit (msg : SrvMsg) (b : Branch) : lineOf order msg b ≠ .error .exit := by
  obtain ⟨_,herror,rfl⟩ | ⟨line,hline,-⟩ := @lineOf_unless order msg b
  · simp [herror]
  · simp [hline]

end Lines

lemma commandMsg_request {command topic : List UInt8} (h : topic.length ≤ maxTopicSize) :
    (commandMsg command topic).type ∈ [subscribeSubMsg,unsubscribeSubMsg,closeSubMsg] ∧
      0 ∈ (commandMsg command topic).topic.toList := by
  constructor
  · rw [commandMsg]
    split_ifs <;> simp
  · rw [commandMsg,Buffer.overwrite_toList _ (by simpa using h)]
    simp

lemma handleStdinMsg_orderly (io : Io) (line : Option (List UInt8)) :
    Orderly order sub (handleStdinMsg order sub io line) := by
  cases line with
  | none => exact .halt (by simp)
  | some line =>
    rw [handleStdinMsg]
    cases htokens : tokens line with
    | nil => exact .print _
    | cons command arguments =>
      simp only
      split_ifs with hexit hcommand
      · rw [stopProgram]
        split_ifs
        · exact .print _
        · exact .bind (.send (by simp) (by simp) io) fun _ => .closing io
      · match arguments with
        | [] => exact .halt (by simp)
        | [topic] =>
          by_cases hlong : maxTopicSize < topic.length
          · rw [updateSubscriptions,if_pos hlong]
            exact .print _
          · obtain ⟨htype,hnul⟩ := @commandMsg_request command topic (not_lt.mp hlong)
            rw [updateSubscriptions,if_neg hlong]
            exact .bind (.send htype hnul io) fun _ => .print _
        | _ :: _ :: _ => exact .print _
      · exact .print _

lemma handleServerMsg_orderly (incoming : Incoming) : Orderly order sub (handleServerMsg order sub incoming) := by
  cases hgot : incoming.received with
  | none =>
    simp only [handleServerMsg,hgot]
    exact .halt (by simp)
  | some got =>
    simp only [handleServerMsg,hgot]
    refine .bind (.emit trivial (by simp)) fun _ => ?_
    split_ifs
    · exact .closing incoming.io
    · exact .lift_bind (lineOf_ne_exit _ _) fun line => .print line

/-- The system calls succeed, a command is typed with its topic, and a message either closes the connection or has a
line. -/
def Benign (order : ByteOrder) : Event → Prop
  | .command io line => io = .ok ∧ ∃ text, line = some text ∧ tokens text ≠ [chars "subscribe"] ∧
      tokens text ≠ [chars "unsubscribe"]
  | .message incoming => incoming.io = .ok ∧ ∃ got, incoming.received = some got ∧
      ((found order incoming.stack got).type = closeSrvMsg ∨ ∃ line,
        lineOf order (found order incoming.stack got) (branch (found order incoming.stack got).type) = .ok line)

/-- The computation comes back to the loop or exits. -/
def GoesOn (x : Action Unit) : Prop := x.result = .ok () ∨ x.result = .error .exit

lemma handleStdinMsg_goesOn {text : List UInt8} (hsubscribe : tokens text ≠ [chars "subscribe"])
    (hunsubscribe : tokens text ≠ [chars "unsubscribe"]) : GoesOn (handleStdinMsg order sub .ok (some text)) := by
  rw [handleStdinMsg]
  cases htokens : tokens text with
  | nil => exact .inl rfl
  | cons command arguments =>
    rw [htokens] at hsubscribe hunsubscribe
    simp only
    split_ifs with hexit hcommand
    · rw [stopProgram]
      split_ifs
      · exact .inl rfl
      · exact .inr rfl
    · match arguments with
      | [] =>
        rcases hcommand with rfl | rfl
        · exact absurd rfl hsubscribe
        · exact absurd rfl hunsubscribe
      | [topic] =>
        by_cases hlong : maxTopicSize < topic.length
        · rw [updateSubscriptions,if_pos hlong]
          exact .inl rfl
        · rw [updateSubscriptions,if_neg hlong]
          exact .inl rfl
      | _ :: _ :: _ => exact .inl rfl
    · exact .inl rfl

lemma Benign.goesOn {e : Event} (h : Benign order e) : GoesOn ((machine order sub).step () e) := by
  cases e with
  | command io line =>
    obtain ⟨rfl,text,rfl,hsubscribe,hunsubscribe⟩ := h
    exact handleStdinMsg_goesOn hsubscribe hunsubscribe
  | message incoming =>
    obtain ⟨hio,got,hgot,hcases⟩ := h
    change GoesOn (handleServerMsg order sub incoming)
    rw [found] at hcases
    simp only [handleServerMsg,hgot]
    generalize SrvMsg.ofBytes order (incoming.stack.overwrite got) = msg at hcases ⊢
    by_cases hclose : branch msg.type = .closeConnection
    · rw [if_pos hclose,hio]
      exact .inr rfl
    · obtain ⟨line,hline⟩ := hcases.resolve_left fun h => hclose ((branch_eq_close_iff _).mpr h)
      rw [if_neg hclose,hline]
      exact .inl rfl

lemma machine_goesOn {es : List Event} (h : ∀ e ∈ es, Benign order e) :
    GoesOn ((machine order sub).steps () es) := by
  induction es with
  | nil => exact .inl rfl
  | cons e es ih =>
    have hrest := ih fun e' he' => h e' (List.mem_cons_of_mem e he')
    rw [GoesOn,steps_cons,bind_result]
    rcases @Benign.goesOn order sub e (h e List.mem_cons_self) with hok | hexit
    · rw [hok]
      exact hrest
    · rw [hexit]
      exact .inr rfl

/-- The loop of the subscriber, in every environment: it makes the handler calls of its rounds in order, whatever the
flags it starts with; it sends requests only, and closes the socket once, as its last effect, exactly when it exits;
and in a benign environment it goes on until it exits. -/
theorem mainLoop_safe (order : ByteOrder) (sub : Sub) (revents : UInt16) (wakes : List Wakeup) :
    ((mainLoop order sub revents).steps (initPollFds sub revents) wakes).map (fun _ => ()) =
      (machine order sub).steps () (wakes.flatMap Wakeup.events) ∧
    Orderly order sub ((mainLoop order sub revents).steps (initPollFds sub revents) wakes) ∧
    ((∀ wake ∈ wakes, ∀ e ∈ wake.events, Benign order e) →
      GoesOn (((mainLoop order sub revents).steps (initPollFds sub revents) wakes).map fun _ => ())) := by
  have hsteps := @mainLoop_eq_steps order sub revents (initPollFds sub revents) wakes
  refine ⟨hsteps,?_,fun h => ?_⟩
  · refine .steps (fun pfds wake => .bind ?_ fun pfds' => ?_) _ wakes
    · rw [onStdin]
      split_ifs
      · exact .bind (handleStdinMsg_orderly _ _) fun _ => .pure _
      · exact .pure _
    · rw [onServer]
      split_ifs
      · exact .bind (handleServerMsg_orderly _) fun _ => .pure _
      · exact .pure _
  · rw [hsteps]
    refine machine_goesOn fun e he => ?_
    obtain ⟨wake,hwake,he⟩ := List.mem_flatMap.mp he
    exact h wake hwake e he

/-- A line is typed, and nothing comes from the server. -/
def typing (text : List UInt8) : Wakeup := ⟨pollin,0,.ok,some text,⟨Buffer.zeroed _,none,.ok⟩⟩

lemma typing_benign {text : List UInt8} (hsubscribe : tokens text ≠ [chars "subscribe"])
    (hunsubscribe : tokens text ≠ [chars "unsubscribe"]) : ∀ e ∈ (typing text).events, Benign order e := by
  intro e he
  have hready : finds pollin = true ∧ finds 0 = false := by decide
  simp only [typing,Wakeup.events,hready,if_true,Bool.false_eq_true,if_false,
    List.append_nil,List.mem_singleton] at he
  subst he
  exact ⟨rfl,text,rfl,hsubscribe,hunsubscribe⟩

/-- A topic is subscribed to, and then the subscriber is stopped. -/
theorem mainLoop_safe_typing : GoesOn (((mainLoop .little ⟨5,chars "c"⟩ 1).steps (initPollFds ⟨5,chars "c"⟩ 1)
    [typing (chars "subscribe a/+"),typing (chars "exit")]).map fun _ => ()) := by
  refine (mainLoop_safe .little ⟨5,chars "c"⟩ 1 _).2.2 fun wake hwake => ?_
  simp only [List.mem_cons,List.not_mem_nil,or_false] at hwake
  rcases hwake with rfl | rfl
  · exact typing_benign (by decide) (by decide)
  · exact typing_benign (by decide) (by decide)

end Safety

end ClientServerApp.Subscriber
