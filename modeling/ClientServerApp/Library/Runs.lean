import ClientServerApp.Library.Traced

/-! Finite runs of a machine driven by events of its environment, with the log of the
effects performed so far. A property of all runs is proved from a property of one step. -/
namespace Runs
open Traced

/-- An initial state and the reaction to one event. -/
structure Machine (S E ε ω : Type) where
  init : S
  step : S → E → Traced ε ω S

variable {S E ε ω A : Type} (M : Machine S E ε ω)

/-- The reaction to a sequence of events; it ends with the first step that halts. -/
def Machine.steps : S → List E → Traced ε ω S
  | s,[] => pure s
  | s,e :: es => M.step s e >>= fun s' => Machine.steps s' es

/-- A run whose environment only performs events that `admits` allows after the given log and in the
given state; a step that halts ends the run and is not part of it. -/
inductive GuardedRun (admits : List ω → S → E → Prop) : List E → List ω → S → Prop
  | init : GuardedRun admits [] [] M.init
  | step {es t s e out s'} (prior : GuardedRun admits es t s) (allowed : admits t s e)
      (taken : M.step s e = ⟨out,.ok s'⟩) : GuardedRun admits (es ++ [e]) (t ++ out) s'

/-- A run whose environment goes by the log only. -/
abbrev Run (admits : List ω → E → Prop) : List E → List ω → S → Prop := GuardedRun M fun t _ e => admits t e

variable {M} {es : List E} {t : List ω} {s : S}

namespace GuardedRun
variable {admits admits' : List ω → S → E → Prop}

/-- A run of a stricter environment is a run of a more permissive one. -/
theorem mono (h : ∀ t s e, admits t s e → admits' t s e) (run : GuardedRun M admits es t s) :
    GuardedRun M admits' es t s := by
  induction run with
  | init => exact .init
  | step _ allowed taken ih => exact .step ih (h _ _ _ allowed) taken

/-- Forward simulation: a relation to an abstract machine that every step maintains holds
between the state reached and the abstract state after the same events. -/
theorem simulation (next : A → E → A) (R : List ω → S → A → Prop) {a : A}
    (start : R [] M.init a)
    (maintained : ∀ t s b e out s', R t s b → admits t s e → M.step s e = ⟨out,.ok s'⟩ →
      R (t ++ out) s' (next b e))
    (run : GuardedRun M admits es t s) : R t s (es.foldl next a) := by
  induction run with
  | init => exact start
  | step _ allowed taken ih =>
    rw [List.foldl_append]
    exact maintained _ _ _ _ _ _ ih allowed taken

/-- An invariant that holds at the start and is kept by every step holds in every state reached. -/
theorem invariant (I : List ω → S → Prop) (start : I [] M.init)
    (maintained : ∀ t s e out s', I t s → admits t s e → M.step s e = ⟨out,.ok s'⟩ → I (t ++ out) s')
    (run : GuardedRun M admits es t s) : I t s :=
  run.simulation (fun (u : Unit) _ => u) (fun t s _ => I t s) start
    (fun t s _ e out s' h ha hs => maintained t s e out s' h ha hs) (a := ())

end GuardedRun

variable {admits : List ω → E → Prop}

section Steps

@[simp] theorem steps_nil (s : S) : M.steps s [] = pure s := rfl

theorem steps_cons (s : S) (e : E) (es : List E) :
    M.steps s (e :: es) = M.step s e >>= fun s' => M.steps s' es := rfl

/-- One sequence of events after another. -/
theorem steps_append {es es' : List E} {o₁ o₂ : List ω} {s s₁ s₂ : S} (h : M.steps s es = ⟨o₁,.ok s₁⟩)
    (h' : M.steps s₁ es' = ⟨o₂,.ok s₂⟩) : M.steps s (es ++ es') = ⟨o₁ ++ o₂,.ok s₂⟩ := by
  induction es generalizing s o₁ with
  | nil =>
    cases h
    exact h'
  | cons e es ih =>
    obtain ⟨o,s',o',hstep,hrest,rfl⟩ := bind_eq_ok.mp h
    rw [List.cons_append,steps_cons,hstep,mk_ok_bind,ih hrest,List.append_assoc]

theorem steps_concat (s : S) (es es' : List E) :
    M.steps s (es ++ es') = M.steps s es >>= fun s' => M.steps s' es' := by
  induction es generalizing s with
  | nil => rfl
  | cons e es ih =>
    rw [List.cons_append,steps_cons,steps_cons,Traced.bind_assoc]
    exact Traced.bind_congr fun _ s' _ => ih s'

/-- Every event of the sequence is allowed when its turn comes. -/
def Machine.Allows (M : Machine S E ε ω) (admits : List ω → E → Prop) : List ω → S → List E → Prop
  | _,_,[] => True
  | t,s,e :: es => admits t e ∧ ∀ out s', M.step s e = ⟨out,.ok s'⟩ → Machine.Allows M admits (t ++ out) s' es

/-- The later events of an allowed sequence are allowed after the earlier ones. -/
theorem Machine.Allows.rest {es' : List E} (h : M.Allows admits t s (es ++ es')) {out : List ω} {s' : S}
    (hsteps : M.steps s es = ⟨out,.ok s'⟩) : M.Allows admits (t ++ out) s' es' := by
  induction es generalizing t s out with
  | nil =>
    cases hsteps
    simpa using h
  | cons e es ih =>
    obtain ⟨o₁,s₁,o₂,hstep,hrest,rfl⟩ := bind_eq_ok.mp hsteps
    rw [← List.append_assoc]
    exact ih (h.2 o₁ s₁ hstep) hrest

theorem Machine.Allows.first {es' : List E} (h : M.Allows admits t s (es ++ es')) : M.Allows admits t s es := by
  induction es generalizing t s with
  | nil => trivial
  | cons e es ih => exact ⟨h.1,fun out s' hstep => ih (h.2 out s' hstep)⟩

theorem Machine.Allows.mono {admits' : List ω → E → Prop} (hadmits : ∀ t e, admits t e → admits' t e)
    (h : M.Allows admits t s es) : M.Allows admits' t s es := by
  induction es generalizing t s with
  | nil => trivial
  | cons e es ih => exact ⟨hadmits t e h.1,fun out s' hstep => ih (h.2 out s' hstep)⟩

theorem Machine.Allows.of_forall (h : ∀ e ∈ es, ∀ t, admits t e) : M.Allows admits t s es := by
  induction es generalizing t s with
  | nil => trivial
  | cons e es ih =>
    exact ⟨h e List.mem_cons_self t,fun _ _ _ => ih fun e' he' => h e' (List.mem_cons_of_mem e he')⟩

/-- A run goes on with a sequence of events that are allowed. -/
theorem Run.allows_steps {es' : List E} {out : List ω} {s' : S} (run : Run M admits es t s)
    (h : M.Allows admits t s es') (hsteps : M.steps s es' = ⟨out,.ok s'⟩) :
    Run M admits (es ++ es') (t ++ out) s' := by
  induction es' generalizing es t s out with
  | nil =>
    cases hsteps
    simpa using run
  | cons e es' ih =>
    obtain ⟨o₁,s₁,o₂,hstep,hrest,rfl⟩ := bind_eq_ok.mp hsteps
    have hnext := ih (run.step h.1 hstep) (h.2 o₁ s₁ hstep) hrest
    rwa [List.append_assoc,List.singleton_append,List.append_assoc] at hnext

/-- What every step keeps of a state and its log, an allowed sequence of steps keeps. -/
theorem Machine.Allows.invariant {I : List ω → S → Prop}
    (maintained : ∀ t s e out s', I t s → admits t e → M.step s e = ⟨out,.ok s'⟩ → I (t ++ out) s') {es' : List E}
    {out : List ω} {s' : S} (h : M.Allows admits t s es') (hs : I t s) (hsteps : M.steps s es' = ⟨out,.ok s'⟩) :
    I (t ++ out) s' := by
  induction es' generalizing t s out with
  | nil =>
    cases hsteps
    simpa using hs
  | cons e es' ih =>
    obtain ⟨o₁,s₁,o₂,hstep,hrest,rfl⟩ := bind_eq_ok.mp hsteps
    rw [← List.append_assoc]
    exact ih (h.2 o₁ s₁ hstep) (maintained t s e o₁ s₁ hs h.1 hstep) hrest

/-- What every step keeps, a sequence of steps keeps. -/
theorem steps_invariant {allows : E → Prop} (I : S → Prop)
    (maintained : ∀ s e out s', I s → allows e → M.step s e = ⟨out,.ok s'⟩ → I s') {out : List ω} {s s' : S}
    {es : List E} (hs : I s) (hes : ∀ e ∈ es, allows e) (h : M.steps s es = ⟨out,.ok s'⟩) : I s' := by
  induction es generalizing s out with
  | nil =>
    cases h
    exact hs
  | cons e es ih =>
    obtain ⟨o₁,s₁,o₂,hstep,hrest,-⟩ := bind_eq_ok.mp h
    exact ih (maintained s e o₁ s₁ hs (hes e (by simp)) hstep) (fun e he => hes e (by simp [he])) hrest

/-- Where every run goes on with the allowed events, it goes on with a sequence of them. -/
theorem GuardedRun.steps {admits : List ω → S → E → Prop} {allows : E → Prop}
    (progress : ∀ es t s e, GuardedRun M admits es t s → allows e →
      ∃ out s', M.step s e = ⟨out,.ok s'⟩ ∧ GuardedRun M admits (es ++ [e]) (t ++ out) s')
    (run : GuardedRun M admits es t s) {es' : List E} (hes : ∀ e ∈ es', allows e) :
    ∃ out s', M.steps s es' = ⟨out,.ok s'⟩ ∧ GuardedRun M admits (es ++ es') (t ++ out) s' := by
  induction es' generalizing es t s with
  | nil => exact ⟨[],s,rfl,by simpa using run⟩
  | cons e es' ih =>
    obtain ⟨o₁,s₁,hstep,run₁⟩ := progress es t s e run (hes e (by simp))
    obtain ⟨o₂,s₂,hrest,run₂⟩ := ih run₁ fun e he => hes e (by simp [he])
    refine ⟨o₁ ++ o₂,s₂,?_,?_⟩
    · rw [steps_cons,hstep,mk_ok_bind,hrest]
    · simpa using run₂

end Steps

section Computed
variable {admits : List ω → S → E → Prop} {check : List ω → S → E → Bool}

/-- The log and the state after the events, when no step halts and each event passes the check in its turn. -/
def Machine.exec (M : Machine S E ε ω) (check : List ω → S → E → Bool) : List ω → S → List E → Option (List ω × S)
  | t,s,[] => some (t,s)
  | t,s,e :: es => if check t s e then match M.step s e with
      | ⟨out,.ok s'⟩ => Machine.exec M check (t ++ out) s' es
      | ⟨_,.error _⟩ => none
    else none

theorem GuardedRun.exec (hcheck : ∀ t s e, check t s e → admits t s e) (run : GuardedRun M admits es t s)
    {es' : List E} {t' : List ω} {s' : S} (h : M.exec check t s es' = some (t',s')) :
    GuardedRun M admits (es ++ es') t' s' := by
  induction es' generalizing es t s with
  | nil =>
    cases h
    rwa [List.append_nil]
  | cons e es' ih =>
    rw [Machine.exec] at h
    split_ifs at h with hpass
    cases hstep : M.step s e with
    | mk out r =>
      rw [hstep] at h
      cases r with
      | error _ => cases h
      | ok s₁ =>
        have hrest := ih (run.step (hcheck t s e hpass) hstep) h
        rwa [List.append_assoc] at hrest

/-- A run that can be computed, and what is computed of its log and its last state. -/
theorem exists_run (hcheck : ∀ t s e, check t s e → admits t s e) {P : List ω × S → Bool}
    (h : (M.exec check [] M.init es).any P) : ∃ t s, GuardedRun M admits es t s ∧ P (t,s) := by
  obtain ⟨⟨t,s⟩,hexec,hP⟩ := (Option.any_eq_true _ _).mp h
  exact ⟨t,s,.exec hcheck .init hexec,hP⟩

end Computed

end Runs
