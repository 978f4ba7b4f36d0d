import ClientServerApp.Network.Upstream

/-! The command line of the subscriber: its tokens as successive calls of `strtok` return them, and what
each line makes the subscriber do. -/
namespace ClientServerApp

section Tokens

/-- A character at which `strtok` cuts. -/
def isDelimiter (c : UInt8) : Bool := c == chr ' ' || c == chr '\n'

/-- One call of `strtok` on what the calls before it have left: the token and what is left now. -/
def strtok (rest : List UInt8) : Option (List UInt8 × List UInt8) :=
  match (cString rest).dropWhile isDelimiter with
  | [] => none
  | c :: text => some ((c :: text).takeWhile (!isDelimiter ·),((c :: text).dropWhile (!isDelimiter ·)).tail)

/-- The pieces of a text between delimiters that are not empty. -/
def pieces (text : List UInt8) : List (List UInt8) := (text.splitOnP isDelimiter).filter (· ≠ [])

lemma pieces_delimiter {c : UInt8} (hc : isDelimiter c) (text : List UInt8) : pieces (c :: text) = pieces text := by
  rw [pieces,List.splitOnP_cons_eq_if_modifyHead,if_pos hc]
  rfl

lemma pieces_dropWhile (text : List UInt8) : pieces (text.dropWhile isDelimiter) = pieces text := by
  induction text with
  | nil => rfl
  | cons c text ih =>
    rw [List.dropWhile_cons]
    split_ifs with hc
    · rw [ih,pieces_delimiter hc]
    · rfl

/-- A first piece ends at the first delimiter behind it. -/
lemma pieces_cons {c : UInt8} (hc : isDelimiter c = false) (text : List UInt8) : pieces (c :: text) =
    (c :: text).takeWhile (!isDelimiter ·) :: pieces ((c :: text).dropWhile (!isDelimiter ·)).tail := by
  have hword : ∀ d ∈ (c :: text).takeWhile (!isDelimiter ·), isDelimiter d = false := fun d hd => by
    simpa using List.mem_takeWhile_imp hd
  have hne : (c :: text).takeWhile (!isDelimiter ·) ≠ [] := by simp [hc]
  have hsplit := @List.takeWhile_append_dropWhile _ (!isDelimiter ·) (c :: text)
  cases hrest : (c :: text).dropWhile (!isDelimiter ·) with
  | nil =>
    rw [hrest,List.append_nil] at hsplit
    rw [hsplit] at hword hne ⊢
    rw [pieces,List.splitOnP_eq_singleton hword]
    simp [hne,pieces]
  | cons d rest =>
    have hd : isDelimiter d = true := by
      have hhead := List.head?_dropWhile_not (!isDelimiter ·) (c :: text)
      rw [hrest] at hhead
      simpa using hhead
    rw [hrest] at hsplit
    rw [pieces,← hsplit,List.splitOnP_append_cons_of_forall_mem hword d hd]
    simp only [hsplit]
    rw [List.filter_cons_of_pos (by simp [hc])]
    rfl

/-- The tokens of a line are what the successive calls of `strtok` return. -/
theorem tokens_eq_strtok (line : List UInt8) :
    tokens line = (strtok line).elim [] fun cut => cut.1 :: tokens cut.2 := by
  change pieces (cString line) = _
  rw [← pieces_dropWhile,strtok]
  cases hline : (cString line).dropWhile isDelimiter with
  | nil => rfl
  | cons c text =>
    have hc : isDelimiter c = false := by
      have hhead := List.head?_dropWhile_not isDelimiter (cString line)
      rw [hline] at hhead
      simpa using hhead
    have hnul : 0 ∉ ((c :: text).dropWhile (!isDelimiter ·)).tail := by
      intro hzero
      have hmem := (List.dropWhile_suffix (!isDelimiter ·)).mem (List.mem_of_mem_tail hzero)
      rw [← hline] at hmem
      exact zero_not_mem_cString line ((List.dropWhile_suffix isDelimiter).mem hmem)
    rw [pieces_cons hc]
    change _ = _ :: pieces (cString _)
    rw [cString_eq_self hnul]

/-- A token consists of characters of its text. -/
lemma mem_of_mem_piece {text token : List UInt8} (h : token ∈ pieces text) {c : UInt8} (hc : c ∈ token) :
    c ∈ text := by
  have hpiece : ∀ l : List UInt8, ∀ t ∈ l.splitOnP isDelimiter, ∀ c ∈ t, c ∈ l := by
    intro l
    induction l with
    | nil => simp
    | cons d l ih =>
      intro t ht c hc
      rw [List.splitOnP_cons_eq_if_modifyHead] at ht
      split_ifs at ht with hd
      · rcases List.mem_cons.mp ht with rfl | ht
        · cases hc
        · exact List.mem_cons_of_mem d (ih t ht c hc)
      · obtain ⟨first,pieces,hl⟩ := List.exists_cons_of_ne_nil (List.splitOnP_ne_nil isDelimiter l)
        rw [hl] at ih ht
        rcases List.mem_cons.mp ht with rfl | ht
        · rcases List.mem_cons.mp hc with rfl | hc
          · exact List.mem_cons_self
          · exact List.mem_cons_of_mem d (ih first List.mem_cons_self c hc)
        · exact List.mem_cons_of_mem d (ih t (List.mem_cons_of_mem _ ht) c hc)
  exact hpiece text token (List.mem_of_mem_filter h) c hc

/-- No token has a NUL. -/
lemma zero_not_mem_token {line token : List UInt8} (h : token ∈ tokens line) : 0 ∉ token :=
  fun hzero => zero_not_mem_cString line (mem_of_mem_piece h hzero)

end Tokens

namespace Network
open Traced
open Subscriber (Sub Effect handleStdinMsg updateSubscriptions stopProgram)

namespace Command

/-- The tokens of the command. -/
def tokens (c : Command) : List (List UInt8) := [c.word,c.topic]

def type : Command → UInt32
  | .subscribe _ => subscribeSubMsg
  | .unsubscribe _ => unsubscribeSubMsg

lemma tokens_injective : Function.Injective tokens := by
  have hwords : chars "subscribe" ≠ chars "unsubscribe" := by decide
  intro c d h
  obtain ⟨hword,htopic⟩ := List.cons.inj h
  cases c with
  | subscribe topic =>
    cases d with
    | subscribe topic' =>
      obtain rfl : topic = topic' := (List.cons.inj htopic).1
      rfl
    | unsubscribe topic' => exact absurd hword hwords
  | unsubscribe topic =>
    cases d with
    | subscribe topic' => exact absurd hword.symm hwords
    | unsubscribe topic' =>
      obtain rfl : topic = topic' := (List.cons.inj htopic).1
      rfl

lemma singleton_ne_tokens (word : List UInt8) (c : Command) : [word] ≠ c.tokens := by
  intro h
  have hlength : 1 = 2 := congrArg List.length h
  omega

lemma msg_type (c : Command) : c.msg.type = c.type := by
  cases c with
  | subscribe topic => rfl
  | unsubscribe topic =>
    have hword : ¬ chars "unsubscribe" = chars "subscribe" := by decide
    simp only [msg,Subscriber.commandMsg,word]
    exact if_neg hword

end Command

/-- The messages passed to `send`. -/
def sends (t : List Effect) : List (List UInt8) := t.filterMap fun effect => match effect with
  | .send bytes => some bytes
  | _ => none

/-- The lines with which the subscriber answers to a command that it does not execute. -/
def errorLines : List (List UInt8) :=
  [chars "Invalid command.\n",chars "Invalid arguments for command.\n",
    chars "The topic can have maximum " ++ decimal maxTopicSize ++ chars " chars.\n"]

/-- One message of the type is sent and nothing else. -/
def SendsOne (order : ByteOrder) (type : UInt32) (t : List Effect) : Prop :=
  ∃ msg : SubMsg, msg.type = type ∧ sends t = [msg.bytes order]

/-- What the server finds in the bytes that the subscriber sends: the type and the topic of the command. -/
def Shows (order : ByteOrder) (c : Command) (bytes : List UInt8) : Prop :=
  bytes.length = subMsgSize ∧ ∀ stack : Buffer subMsgSize,
    (SubMsg.ofBytes order (stack.overwrite bytes)).type = c.type ∧
    readString (SubMsg.ofBytes order (stack.overwrite bytes)).topic.toList = .ok c.topic

/-- The line is parsed exactly, when the system calls succeed: each of the three commands is executed if and
only if the tokens are its own, and every other line is answered with an error. -/
structure ParsedExactly (order : ByteOrder) (sub : Sub) (line : List UInt8) : Prop where
  subscribe : SendsOne order subscribeSubMsg (handleStdinMsg order sub .ok (some line)).out ↔
    ∃ topic, tokens line = [chars "subscribe",topic] ∧ topic.length ≤ maxTopicSize
  unsubscribe : SendsOne order unsubscribeSubMsg (handleStdinMsg order sub .ok (some line)).out ↔
    ∃ topic, tokens line = [chars "unsubscribe",topic] ∧ topic.length ≤ maxTopicSize
  shown (c : Command) : tokens line = c.tokens → c.topic.length ≤ maxTopicSize →
    ∃ bytes, sends (handleStdinMsg order sub .ok (some line)).out = [bytes] ∧ Shows order c bytes
  exit : SendsOne order closeSubMsg (handleStdinMsg order sub .ok (some line)).out ∧
    (handleStdinMsg order sub .ok (some line)).result = .error .exit ↔ tokens line = [chars "exit"]
  other : (∀ c : Command, tokens line = c.tokens → maxTopicSize < c.topic.length) →
    tokens line ≠ [chars "exit"] →
    ∃ text ∈ errorLines, handleStdinMsg order sub .ok (some line) = ⟨[.print text],.ok ()⟩

section Lines
variable (order : ByteOrder) (sub : Sub) {line : List UInt8}

lemma handleStdinMsg_command {c : Command} (h : tokens line = c.tokens) :
    handleStdinMsg order sub .ok (some line) = updateSubscriptions order .ok c.word [c.topic] := by
  rw [handleStdinMsg,h]
  cases c with
  | subscribe topic => rfl
  | unsubscribe topic => rfl

lemma handleStdinMsg_fits {c : Command} (h : tokens line = c.tokens) (hfits : c.topic.length ≤ maxTopicSize) :
    sends (handleStdinMsg order sub .ok (some line)).out = [c.msg.bytes order] ∧
    (handleStdinMsg order sub .ok (some line)).result = .ok () := by
  obtain ⟨text,hrun⟩ := updateSubscriptions_eq order hfits
  rw [handleStdinMsg_command order sub h,hrun]
  exact ⟨rfl,rfl⟩

lemma handleStdinMsg_exit (h : tokens line = [chars "exit"]) :
    handleStdinMsg order sub .ok (some line) =
      ⟨[.send (SubMsg.bytes order ⟨closeSubMsg,Buffer.zeroed _⟩),.close sub.sockFd],.error .exit⟩ := by
  rw [handleStdinMsg,h]
  rfl

/-- Without a topic the length of no string is taken. -/
lemma handleStdinMsg_missing (h : tokens line = [chars "subscribe"] ∨ tokens line = [chars "unsubscribe"]) :
    handleStdinMsg order sub .ok (some line) = halt .undefined := by
  rcases h with h | h
  · rw [handleStdinMsg,h]
    rfl
  · rw [handleStdinMsg,h]
    rfl

/-- The arguments of a command that do not have the form of one. -/
lemma updateSubscriptions_error {command : List UInt8} {arguments : List (List UInt8)} (hne : arguments ≠ [])
    (hlong : ∀ topic, arguments = [topic] → maxTopicSize < topic.length) :
    ∃ text ∈ errorLines, updateSubscriptions order .ok command arguments = ⟨[.print text],.ok ()⟩ := by
  match arguments with
  | [] => exact absurd rfl hne
  | [topic] =>
    refine ⟨chars "The topic can have maximum " ++ decimal maxTopicSize ++ chars " chars.\n",by simp [errorLines],?_⟩
    rw [updateSubscriptions,if_pos (hlong topic rfl)]
    rfl
  | topic :: more :: rest => exact ⟨chars "Invalid arguments for command.\n",by simp [errorLines],rfl⟩

lemma handleStdinMsg_other (hcommand : ∀ c : Command, tokens line = c.tokens → maxTopicSize < c.topic.length)
    (hexit : tokens line ≠ [chars "exit"]) (hsubscribe : tokens line ≠ [chars "subscribe"])
    (hunsubscribe : tokens line ≠ [chars "unsubscribe"]) :
    ∃ text ∈ errorLines, handleStdinMsg order sub .ok (some line) = ⟨[.print text],.ok ()⟩ := by
  have hinvalid : chars "Invalid command.\n" ∈ errorLines := by simp [errorLines]
  rw [handleStdinMsg]
  cases htokens : tokens line with
  | nil => exact ⟨_,hinvalid,rfl⟩
  | cons command arguments =>
    rw [htokens] at hcommand hexit hsubscribe hunsubscribe
    simp only
    split_ifs with hstop hupdate
    · have hne : arguments ≠ [] := by
        rintro rfl
        exact hexit (by rw [hstop])
      refine ⟨chars "Invalid arguments for command.\n",by simp [errorLines],?_⟩
      rw [stopProgram,if_pos hne]
      rfl
    · rcases hupdate with rfl | rfl
      · refine updateSubscriptions_error order (fun h => hsubscribe (by rw [h])) fun topic h => ?_
        exact hcommand (.subscribe topic) (by rw [h]; rfl)
      · refine updateSubscriptions_error order (fun h => hunsubscribe (by rw [h])) fun topic h => ?_
        exact hcommand (.unsubscribe topic) (by rw [h]; rfl)
    · exact ⟨_,hinvalid,rfl⟩

/-- The type of a message can be told from its bytes. -/
lemma sendsOne_iff {type : UInt32} {t : List Effect} {msg : SubMsg} (h : sends t = [msg.bytes order]) :
    SendsOne order type t ↔ msg.type = type := by
  constructor
  · rintro ⟨msg',rfl,h'⟩
    have hbytes : msg.bytes order = msg'.bytes order := (List.cons.inj (h.symm.trans h')).1
    have hmsg : msg = msg' := by
      rw [← msg.ofBytes_bytes order,← msg'.ofBytes_bytes order]
      simp only [hbytes]
    rw [hmsg]
  · rintro rfl
    exact ⟨msg,rfl,h⟩

lemma not_sendsOne {type : UInt32} {t : List Effect} (h : sends t = []) : ¬ SendsOne order type t := by
  rintro ⟨msg,-,h'⟩
  rw [h] at h'
  cases h'

/-- The server reads the command back. -/
lemma shows_msg {c : Command} (hfits : c.topic.length ≤ maxTopicSize) (hnul : 0 ∉ c.topic) :
    Shows order c (c.msg.bytes order) := by
  refine ⟨c.msg.bytes_length order,fun stack => ?_⟩
  obtain ⟨hend,htopic⟩ := Command.msg_string hfits hnul
  rw [Server.subMsg_whole,Command.msg_type,readString_ok hend,htopic]
  exact ⟨rfl,rfl⟩

/-- The lines on which the parser is defined, and what it does on each. -/
inductive Handled (line : List UInt8) : Prop
  | command (c : Command) (htokens : tokens line = c.tokens) (hfits : c.topic.length ≤ maxTopicSize)
  | exit (htokens : tokens line = [chars "exit"])
  | other (hcommand : ∀ c : Command, tokens line = c.tokens → maxTopicSize < c.topic.length)
      (hexit : tokens line ≠ [chars "exit"])
      (herror : ∃ text ∈ errorLines, handleStdinMsg order sub .ok (some line) = ⟨[.print text],.ok ()⟩)

variable {order sub}

lemma handled (hsubscribe : tokens line ≠ [chars "subscribe"]) (hunsubscribe : tokens line ≠ [chars "unsubscribe"]) :
    Handled order sub line := by
  by_cases hcommand : ∃ c : Command, tokens line = c.tokens ∧ c.topic.length ≤ maxTopicSize
  · obtain ⟨c,htokens,hfits⟩ := hcommand
    exact .command c htokens hfits
  · by_cases hexit : tokens line = [chars "exit"]
    · exact .exit hexit
    · have hlong : ∀ c : Command, tokens line = c.tokens → maxTopicSize < c.topic.length := fun c htokens => by
        by_contra hfits
        exact hcommand ⟨c,htokens,not_lt.mp hfits⟩
      exact .other hlong hexit (handleStdinMsg_other order sub hlong hexit hsubscribe hunsubscribe)

namespace Handled

/-- A message of a command is sent exactly on the tokens of such a command. -/
lemma sendsOne_command (h : Handled order sub line) {type : UInt32} (htype : type ≠ closeSubMsg) :
    SendsOne order type (handleStdinMsg order sub .ok (some line)).out ↔
      ∃ c : Command, c.type = type ∧ tokens line = c.tokens ∧ c.topic.length ≤ maxTopicSize := by
  cases h with
  | command c htokens hfits =>
    rw [sendsOne_iff order (handleStdinMsg_fits order sub htokens hfits).1,Command.msg_type]
    constructor
    · intro hc
      exact ⟨c,hc,htokens,hfits⟩
    · rintro ⟨d,hd,htokens',-⟩
      rw [Command.tokens_injective (htokens.symm.trans htokens'),hd]
  | exit htokens =>
    have hsent : sends (handleStdinMsg order sub .ok (some line)).out =
        [SubMsg.bytes order ⟨closeSubMsg,Buffer.zeroed _⟩] := by
      rw [handleStdinMsg_exit order sub htokens]
      rfl
    rw [sendsOne_iff order hsent]
    constructor
    · intro hc
      exact absurd hc.symm htype
    · rintro ⟨d,-,htokens',-⟩
      exact absurd (htokens.symm.trans htokens') (Command.singleton_ne_tokens _ d)
  | other hcommand hexit herror =>
    obtain ⟨text,-,hrun⟩ := herror
    constructor
    · intro hone
      rw [hrun] at hone
      exact absurd hone (not_sendsOne order rfl)
    · rintro ⟨d,-,htokens,hfits⟩
      exact absurd hfits (not_le.mpr (hcommand d htokens))

lemma exit_iff (h : Handled order sub line) :
    SendsOne order closeSubMsg (handleStdinMsg order sub .ok (some line)).out ∧
      (handleStdinMsg order sub .ok (some line)).result = .error .exit ↔ tokens line = [chars "exit"] := by
  constructor
  · rintro ⟨-,hexit⟩
    cases h with
    | command c htokens hfits =>
      rw [(handleStdinMsg_fits order sub htokens hfits).2] at hexit
      cases hexit
    | exit htokens => exact htokens
    | other hcommand hexit' herror =>
      obtain ⟨text,-,hrun⟩ := herror
      rw [hrun] at hexit
      cases hexit
  · intro htokens
    rw [handleStdinMsg_exit order sub htokens]
    exact ⟨⟨_,rfl,rfl⟩,rfl⟩

lemma other_error (h : Handled order sub line)
    (hcommand : ∀ c : Command, tokens line = c.tokens → maxTopicSize < c.topic.length)
    (hexit : tokens line ≠ [chars "exit"]) :
    ∃ text ∈ errorLines, handleStdinMsg order sub .ok (some line) = ⟨[.print text],.ok ()⟩ := by
  cases h with
  | command c htokens hfits => exact absurd hfits (not_le.mpr (hcommand c htokens))
  | exit htokens => exact absurd htokens hexit
  | other _ _ herror => exact herror

end Handled

end Lines

/-- The command line is parsed exactly unless its only token is `subscribe` or `unsubscribe`. -/
theorem line_parsedExactly_iff (order : ByteOrder) (sub : Sub) (line : List UInt8) :
    ParsedExactly order sub line ↔
      tokens line ≠ [chars "subscribe"] ∧ tokens line ≠ [chars "unsubscribe"] := by
  constructor
  · intro h
    by_contra hmissing
    have hword : tokens line = [chars "subscribe"] ∨ tokens line = [chars "unsubscribe"] := by
      by_contra hnone
      exact hmissing (not_or.mp hnone)
    have hcommand : ∀ c : Command, tokens line = c.tokens → maxTopicSize < c.topic.length := fun c htokens => by
      rcases hword with hw | hw
      · exact absurd (hw.symm.trans htokens) (Command.singleton_ne_tokens _ c)
      · exact absurd (hw.symm.trans htokens) (Command.singleton_ne_tokens _ c)
    have hexit : tokens line ≠ [chars "exit"] := by
      rcases hword with hw | hw <;> rw [hw] <;> decide
    obtain ⟨text,-,hrun⟩ := h.other hcommand hexit
    rw [handleStdinMsg_missing order sub hword] at hrun
    exact halt_ne_ok _ _ _ hrun
  · rintro ⟨hsubscribe,hunsubscribe⟩
    have h : Handled order sub line := handled hsubscribe hunsubscribe
    refine ⟨?_,?_,?_,h.exit_iff,h.other_error⟩
    · rw [h.sendsOne_command (by decide)]
      constructor
      · rintro ⟨c,hc,htokens,hfits⟩
        cases c with
        | subscribe topic => exact ⟨topic,htokens,hfits⟩
        | unsubscribe topic => exact absurd hc (by decide : ¬ unsubscribeSubMsg = subscribeSubMsg)
      · rintro ⟨topic,htokens,hfits⟩
        exact ⟨.subscribe topic,rfl,htokens,hfits⟩
    · rw [h.sendsOne_command (by decide)]
      constructor
      · rintro ⟨c,hc,htokens,hfits⟩
        cases c with
        | subscribe topic => exact absurd hc (by decide : ¬ subscribeSubMsg = unsubscribeSubMsg)
        | unsubscribe topic => exact ⟨topic,htokens,hfits⟩
      · rintro ⟨topic,htokens,hfits⟩
        exact ⟨.unsubscribe topic,rfl,htokens,hfits⟩
    · intro c htokens hfits
      have hnul : 0 ∉ c.topic := @zero_not_mem_token line _ (by rw [htokens]; simp [Command.tokens])
      exact ⟨_,(handleStdinMsg_fits order sub htokens hfits).1,shows_msg order hfits hnul⟩

/-- A command with more blanks than needed. -/
theorem line_parsedExactly_blanks :
    ParsedExactly .little ⟨3,chars "id"⟩ (chars "  subscribe \n upb/+ \n") :=
  (line_parsedExactly_iff .little ⟨3,chars "id"⟩ _).mpr ⟨by decide,by decide⟩

/-- `subscribe` without a topic ends the defined behaviour instead of reporting an error. -/
theorem line_missing_topic : ¬ ParsedExactly .little ⟨3,chars "id"⟩ (chars "subscribe\n") := by
  intro h
  have hword : tokens (chars "subscribe\n") = [chars "subscribe"] := by decide
  obtain ⟨text,-,hrun⟩ := h.other
    (fun c htokens => absurd (hword.symm.trans htokens) (Command.singleton_ne_tokens _ c)) (by decide)
  rw [handleStdinMsg_missing .little ⟨3,chars "id"⟩ (.inl hword)] at hrun
  exact halt_ne_ok _ _ _ hrun

end Network

end ClientServerApp
