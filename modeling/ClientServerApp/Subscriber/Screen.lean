import ClientServerApp.Subscriber.Framing

/-! The screen of a subscriber: the lines that it prints for a sequence of whole messages. -/
namespace ClientServerApp.Subscriber
open Traced Runs

section Calls
variable {order : ByteOrder} {sub : Sub} {call : Incoming} {msg : SrvMsg} {line : List UInt8}

lemma step_prints (hgot : call.received = some (msg.bytes order)) (hopen : msg.type ≠ closeSrvMsg)
    (hline : lineOf order msg (branch msg.type) = .ok line) :
    step order sub (.message call) = ⟨[.handle (branch msg.type) msg,.print line],.ok ()⟩ := by
  have hwhole := found_whole order call.stack msg
  have hprints := @handleServerMsg_prints order sub call _ line hgot (by rwa [hwhole]) (by rwa [hwhole])
  rwa [hwhole] at hprints

lemma step_closes (hgot : call.received = some (msg.bytes order)) (hclose : msg.type = closeSrvMsg)
    (hio : call.io = .ok) : step order sub (.message call) =
      ⟨[.handle .closeConnection msg,.close sub.sockFd],.error .exit⟩ := by
  have hwhole := found_whole order call.stack msg
  rw [step,handleServerMsg_closes order sub hgot (by rwa [hwhole]) hio,hwhole]

/-- The lines for whole messages of which the last may close the connection. -/
lemma screen_steps {calls : List Incoming} {msgs : List SrvMsg} {lines : List (List UInt8)}
    (hcalls : calls.map Incoming.received = msgs.map fun msg => some (msg.bytes order))
    (hio : ∀ call ∈ calls, call.io = .ok) (hlast : ∀ msg ∈ msgs.dropLast, msg.type ≠ closeSrvMsg)
    (hlines : List.Forall₂ (fun msg line => lineOf order msg (branch msg.type) = .ok line)
      (msgs.filter (·.type ≠ closeSrvMsg)) lines) :
    ∃ out r, (machine order sub).steps () (calls.map .message) = ⟨out,r⟩ ∧ (r = .ok () ∨ r = .error .exit) ∧
      printedLines out = lines := by
  induction msgs generalizing calls lines with
  | nil =>
    obtain rfl := List.map_eq_nil_iff.mp hcalls
    cases hlines
    exact ⟨[],.ok (),rfl,.inl rfl,rfl⟩
  | cons msg msgs ih =>
    obtain ⟨call,calls,rfl,hgot,hrest⟩ := List.map_eq_cons_iff.mp hcalls
    have hio' : ∀ call ∈ calls, call.io = .ok := fun call hcall => hio call (List.mem_cons_of_mem _ hcall)
    by_cases hclose : msg.type = closeSrvMsg
    · -- nothing comes after it
      have hmsgs : msgs = [] := by
        cases msgs with
        | nil => rfl
        | cons msg' msgs => exact absurd hclose (hlast msg (by simp))
      subst hmsgs
      obtain rfl := List.map_eq_nil_iff.mp hrest
      rw [List.filter_cons_of_neg (by simp [hclose])] at hlines
      cases hlines
      have hrun : (machine order sub).step () (.message call) =
          ⟨[.handle .closeConnection msg,.close sub.sockFd],.error .exit⟩ :=
        step_closes hgot hclose (hio call List.mem_cons_self)
      refine ⟨[.handle .closeConnection msg,.close sub.sockFd],.error .exit,?_,.inr rfl,rfl⟩
      rw [List.map_cons,steps_cons,hrun,mk_error_bind]
    · rw [List.filter_cons_of_pos (by simp [hclose])] at hlines
      obtain ⟨line,rest,hline,hlines',rfl⟩ := List.forall₂_cons_left_iff.mp hlines
      have hlast' : ∀ m ∈ msgs.dropLast, m.type ≠ closeSrvMsg := by
        intro m hm
        cases msgs with
        | nil => exact absurd hm List.not_mem_nil
        | cons msg' msgs => exact hlast m (List.mem_cons_of_mem _ hm)
      obtain ⟨out,r,hsteps,hr,hprinted⟩ := ih hrest hio' hlast' hlines'
      have hrun : (machine order sub).step () (.message call) =
          ⟨[.handle (branch msg.type) msg,.print line],.ok ()⟩ := step_prints hgot hclose hline
      refine ⟨.handle (branch msg.type) msg :: .print line :: out,r,?_,hr,congrArg (List.cons line) hprinted⟩
      rw [List.map_cons,steps_cons,hrun,mk_ok_bind,hsteps]
      rfl

end Calls

end ClientServerApp.Subscriber
