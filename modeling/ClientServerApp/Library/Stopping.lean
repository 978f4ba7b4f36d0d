import Mathlib.Data.List.Forall2
import Mathlib.Tactic

/-! Programs that do what they should unless they stop in a way that is accounted for. -/
namespace Stopping

/-- The program stops as described, or it returns what it should. -/
def Unless {ε α : Type} (stops : ε → Prop) (post : α → Prop) (x : Except ε α) : Prop :=
  (∃ e, x = .error e ∧ stops e) ∨ ∃ a, x = .ok a ∧ post a

namespace Unless
variable {ε ε' α β σ τ : Type} {stops : ε → Prop} {post : α → Prop} {post' : β → Prop}

theorem ok {x : Except ε α} {a : α} (hx : x = .ok a) (h : post a) : Unless stops post x := .inr ⟨a,hx,h⟩

theorem error {x : Except ε α} {e : ε} (hx : x = .error e) (h : stops e) : Unless stops post x := .inl ⟨e,hx,h⟩

/-- The second part starts from what the first one returns. -/
theorem bind {x : Except ε α} {f : α → Except ε β} (hx : Unless stops post x)
    (hf : ∀ a, post a → Unless stops post' (f a)) : Unless stops post' (x >>= f) := by
  obtain ⟨e,rfl,he⟩ | ⟨a,rfl,ha⟩ := hx
  · exact .inl ⟨e,rfl,he⟩
  · exact hf a ha

theorem mono {stops' : ε → Prop} {post' : α → Prop} {x : Except ε α} (hx : Unless stops post x)
    (hstops : ∀ e, stops e → stops' e) (hpost : ∀ a, post a → post' a) : Unless stops' post' x := by
  obtain ⟨e,hx,he⟩ | ⟨a,hx,ha⟩ := hx
  · exact .inl ⟨e,hx,hstops e he⟩
  · exact .inr ⟨a,hx,hpost a ha⟩

/-- A loop follows another one, step by step, when that one succeeds. What holds on the way may depend on what is
left to do. -/
theorem foldlM {R : List β → σ → τ → Prop} {S : α → β → Prop} {f : σ → α → Except ε σ} {g : τ → β → Except ε' τ}
    (hstep : ∀ s t a b rest t', R (b :: rest) s t → S a b → g t b = .ok t' →
      Unless stops (fun s' => R rest s' t') (f s a))
    {l : List α} {l' : List β} (hl : List.Forall₂ S l l') {s : σ} {t t' : τ} (h : R l' s t)
    (hg : l'.foldlM g t = .ok t') : Unless stops (fun s' => R [] s' t') (l.foldlM f s) := by
  induction hl generalizing s t with
  | nil =>
    obtain rfl := Except.ok.inj hg
    exact ok rfl h
  | @cons a b l l' hab _ ih =>
    rw [List.foldlM_cons] at hg ⊢
    cases hb : g t b with
    | error e =>
      rw [hb] at hg
      cases hg
    | ok t₁ =>
      rw [hb] at hg
      exact (hstep s t a b l' t₁ h hab hb).bind fun s' hs' => ih hs' hg

end Unless

end Stopping
