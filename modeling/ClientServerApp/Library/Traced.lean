import Mathlib.Data.List.TakeWhile
import Mathlib.Tactic

/-! Computations that may halt and that log their visible effects. The log survives a halt,
so what a program did before it stopped can still be stated. -/

/-- The effects performed, oldest first, and either a value or the reason of the halt. -/
structure Traced (ε ω α : Type) where
  out : List ω
  result : Except ε α

namespace Traced
variable {ε ω α β : Type}

instance : Monad (Traced ε ω) where
  pure a := ⟨[],.ok a⟩
  bind x f := match x.result with
    | .ok a => ⟨x.out ++ (f a).out, (f a).result⟩
    | .error e => ⟨x.out,.error e⟩

/-- Perform one effect. -/
def emit (w : ω) : Traced ε ω Unit := ⟨[w],.ok ()⟩

/-- Stop for the given reason. -/
def halt (e : ε) : Traced ε ω α := ⟨[],.error e⟩

/-- Run a computation without effects. -/
def lift (x : Except ε α) : Traced ε ω α := ⟨[],x⟩

lemma pure_eq (a : α) : (pure a : Traced ε ω α) = ⟨[],.ok a⟩ := rfl
@[simp] theorem pure_out (a : α) : (pure a : Traced ε ω α).out = [] := rfl
@[simp] theorem pure_result (a : α) : (pure a : Traced ε ω α).result = .ok a := rfl
@[simp] theorem lift_out (x : Except ε α) : (lift x : Traced ε ω α).out = [] := rfl
@[simp] theorem lift_result (x : Except ε α) : (lift x : Traced ε ω α).result = x := rfl
@[simp] theorem halt_out (e : ε) : (halt e : Traced ε ω α).out = [] := rfl
@[simp] theorem halt_result (e : ε) : (halt e : Traced ε ω α).result = .error e := rfl

@[simp] theorem mk_ok_bind (out : List ω) (a : α) (f : α → Traced ε ω β) :
    ((⟨out,.ok a⟩ : Traced ε ω α) >>= f) = ⟨out ++ (f a).out, (f a).result⟩ := rfl

@[simp] theorem mk_error_bind (out : List ω) (e : ε) (f : α → Traced ε ω β) :
    ((⟨out,.error e⟩ : Traced ε ω α) >>= f) = ⟨out,.error e⟩ := rfl

@[simp] theorem pure_bind (a : α) (f : α → Traced ε ω β) :
    ((pure a : Traced ε ω α) >>= f) = f a := rfl

@[simp] theorem halt_bind (e : ε) (f : α → Traced ε ω β) :
    ((halt e : Traced ε ω α) >>= f) = halt e := rfl

@[simp] theorem emit_bind (w : ω) (f : Unit → Traced ε ω β) :
    ((emit w : Traced ε ω Unit) >>= f) = ⟨w :: (f ()).out, (f ()).result⟩ := rfl

@[simp] theorem lift_ok_bind (a : α) (f : α → Traced ε ω β) :
    ((lift (.ok a) : Traced ε ω α) >>= f) = f a := rfl

@[simp] theorem lift_error_bind (e : ε) (f : α → Traced ε ω β) :
    ((lift (.error e) : Traced ε ω α) >>= f) = halt e := rfl

@[simp] theorem halt_ne_ok (e : ε) (out : List ω) (a : α) : (halt e : Traced ε ω α) ≠ ⟨out,.ok a⟩ := by
  intro h
  cases h

/-- The log does not change what is computed. -/
theorem bind_result (x : Traced ε ω α) (f : α → Traced ε ω β) :
    (x >>= f).result = x.result >>= fun a => (f a).result := by
  rcases x with ⟨out,e | a⟩ <;> rfl

theorem bind_pure (x : Traced ε ω α) : x >>= pure = x := by
  rcases x with ⟨out,e | a⟩
  · rfl
  · simp

theorem bind_assoc {γ : Type} (x : Traced ε ω α) (f : α → Traced ε ω β) (g : β → Traced ε ω γ) :
    (x >>= f) >>= g = x >>= fun a => f a >>= g := by
  rcases x with ⟨out,e | a⟩
  · rfl
  · rw [mk_ok_bind,mk_ok_bind]
    rcases f a with ⟨out',e' | b⟩
    · rfl
    · simp [List.append_assoc]

/-- What comes behind a computation matters at its value only. -/
theorem bind_congr {x : Traced ε ω α} {f g : α → Traced ε ω β} (h : ∀ out a, x = ⟨out,.ok a⟩ → f a = g a) :
    x >>= f = x >>= g := by
  rcases x with ⟨out,e | a⟩
  · rfl
  · rw [mk_ok_bind,mk_ok_bind,h out a rfl]

/-- A sequence succeeds exactly when both parts do, and the logs are concatenated. -/
theorem bind_eq_ok {x : Traced ε ω α} {f : α → Traced ε ω β} {out : List ω} {b : β} :
    x >>= f = ⟨out,.ok b⟩ ↔
      ∃ o₁ a o₂, x = ⟨o₁,.ok a⟩ ∧ f a = ⟨o₂,.ok b⟩ ∧ out = o₁ ++ o₂ := by
  rcases x with ⟨o,e | a⟩
  · simp
  · constructor
    · intro h
      refine ⟨o,a,(f a).out,rfl,?_,?_⟩
      · have hr := congrArg Traced.result h
        simp only [mk_ok_bind] at hr
        rw [← hr]
      · exact (congrArg Traced.out h).symm
    · rintro ⟨o₁,a',o₂,hx,hf,rfl⟩
      cases hx
      simp [hf]

/-- A part without effects contributes its value only. -/
theorem lift_bind_eq_ok {x : Except ε α} {f : α → Traced ε ω β} {out : List ω} {b : β} :
    (lift x : Traced ε ω α) >>= f = ⟨out,.ok b⟩ ↔ ∃ a, x = .ok a ∧ f a = ⟨out,.ok b⟩ := by
  cases x with
  | ok a => simp
  | error e => simp [halt]

section Map
variable {γ : Type} (f : α → β)

/-- The computation with another value at its end. -/
def map (x : Traced ε ω α) : Traced ε ω β := ⟨x.out,x.result.map f⟩

@[simp] theorem map_pure (a : α) : map f (pure a : Traced ε ω α) = pure (f a) := rfl
@[simp] theorem map_halt (e : ε) : map f (halt e : Traced ε ω α) = halt e := rfl
@[simp] theorem map_lift (x : Except ε α) : map f (lift x : Traced ε ω α) = lift (x.map f) := rfl
@[simp] theorem map_mk_ok (out : List ω) (a : α) : map f (⟨out,.ok a⟩ : Traced ε ω α) = ⟨out,.ok (f a)⟩ := rfl
@[simp] theorem map_mk_error (out : List ω) (e : ε) : map f (⟨out,.error e⟩ : Traced ε ω α) = ⟨out,.error e⟩ := rfl

theorem map_bind (x : Traced ε ω γ) (g : γ → Traced ε ω α) : map f (x >>= g) = x >>= fun c => map f (g c) := by
  rcases x with ⟨out,e | c⟩ <;> rfl

theorem bind_map (x : Traced ε ω α) (g : β → Traced ε ω γ) : map f x >>= g = x >>= fun a => g (f a) := by
  rcases x with ⟨out,e | a⟩ <;> rfl

theorem map_eq_bind (x : Traced ε ω α) : map f x = x >>= fun a => pure (f a) := by
  rcases x with ⟨out,e | a⟩
  · rfl
  · simp

theorem lift_map_bind (x : Except ε α) (g : β → Traced ε ω γ) :
    lift (x.map f) >>= g = lift x >>= fun a => g (f a) := by
  cases x <;> rfl

end Map

/-- Every effect in the log has the property. -/
def Emits (P : ω → Prop) (x : Traced ε ω α) : Prop := ∀ w ∈ x.out, P w

namespace Emits
variable {P Q : ω → Prop}

lemma pure (a : α) : Emits P (pure a : Traced ε ω α) := fun _ h => absurd h List.not_mem_nil

lemma lift (x : Except ε α) : Emits P (lift x : Traced ε ω α) := fun _ h => absurd h List.not_mem_nil

lemma halt (e : ε) : Emits P (halt e : Traced ε ω α) := fun _ h => absurd h List.not_mem_nil

lemma emit {w : ω} (h : P w) : Emits P (emit w : Traced ε ω Unit) := by
  intro v hv
  rwa [List.mem_singleton.mp hv]

/-- What both parts of a sequence keep to, the sequence keeps to. -/
lemma bind {x : Traced ε ω α} {f : α → Traced ε ω β} (hx : Emits P x) (hf : ∀ a, Emits P (f a)) :
    Emits P (x >>= f) := by
  rcases x with ⟨out,e | a⟩
  · exact hx
  · intro w hw
    rcases List.mem_append.mp hw with hw | hw
    · exact hx w hw
    · exact hf a w hw

/-- What comes behind a part without effects matters only at the value of that part. -/
lemma lift_bind {x : Except ε α} {f : α → Traced ε ω β} (hf : ∀ a, x = .ok a → Emits P (f a)) :
    Emits P (Traced.lift x >>= f) := by
  cases x with
  | ok a => exact hf a rfl
  | error e => exact halt e

lemma mono {x : Traced ε ω α} (hx : Emits P x) (h : ∀ w, P w → Q w) : Emits Q x := fun w hw => h w (hx w hw)

end Emits

section Refusals
variable (allowed : ω → Bool) (e : ε)

/-- The computation in an environment that refuses some effects: the first refused one stops it. -/
def refuse (x : Traced ε ω α) : Traced ε ω α :=
  if x.out.all allowed then x else ⟨x.out.takeWhile allowed,.error e⟩

lemma refuse_of_all {x : Traced ε ω α} (h : x.out.all allowed = true) : refuse allowed e x = x := if_pos h

lemma refuse_of_not_all {x : Traced ε ω α} (h : x.out.all allowed = false) :
    refuse allowed e x = ⟨x.out.takeWhile allowed,.error e⟩ := if_neg (by simp [h])

lemma refuse_of_out_nil {x : Traced ε ω α} (h : x.out = []) : refuse allowed e x = x :=
  refuse_of_all allowed e (by simp [h])

@[simp] theorem refuse_pure (a : α) : refuse allowed e (pure a : Traced ε ω α) = pure a :=
  refuse_of_out_nil allowed e rfl

@[simp] theorem refuse_halt (e' : ε) : refuse allowed e (halt e' : Traced ε ω α) = halt e' :=
  refuse_of_out_nil allowed e rfl

@[simp] theorem refuse_lift (x : Except ε α) : refuse allowed e (lift x : Traced ε ω α) = lift x :=
  refuse_of_out_nil allowed e rfl

@[simp] theorem refuse_emit (w : ω) :
    refuse allowed e (emit w : Traced ε ω Unit) = if allowed w then emit w else halt e := by
  cases hw : allowed w <;> simp [refuse,emit,halt,hw]

/-- A sequence is refused where one of its parts is. -/
theorem refuse_bind (x : Traced ε ω α) (f : α → Traced ε ω β) :
    refuse allowed e (x >>= f) = refuse allowed e x >>= fun a => refuse allowed e (f a) := by
  rcases x with ⟨out,e' | a⟩
  · rw [mk_error_bind]
    unfold refuse
    split_ifs <;> rfl
  · rw [mk_ok_bind]
    cases hout : out.all allowed with
    | true =>
      have hpos : ∀ w ∈ out, allowed w := List.all_eq_true.mp hout
      rw [@refuse_of_all _ _ _ allowed e ⟨out,.ok a⟩ hout,mk_ok_bind]
      cases hrest : (f a).out.all allowed with
      | true =>
        rw [refuse_of_all allowed e hrest]
        exact refuse_of_all allowed e (by simp [List.all_append,hout,hrest])
      | false =>
        rw [refuse_of_not_all allowed e hrest,refuse_of_not_all allowed e (by simp [List.all_append,hrest])]
        simp [List.takeWhile_append_of_pos hpos]
    | false =>
      have hstop : (out ++ (f a).out).takeWhile allowed = out.takeWhile allowed := by
        rw [List.takeWhile_append,if_neg]
        intro hlen
        have hpos := List.takeWhile_eq_self_iff.mp ((List.takeWhile_prefix allowed).eq_of_length hlen)
        simp [List.all_eq_true.mpr hpos] at hout
      rw [@refuse_of_not_all _ _ _ allowed e ⟨out,.ok a⟩ hout,mk_error_bind,
        refuse_of_not_all allowed e (by simp [List.all_append,hout]),hstop]

end Refusals

end Traced
