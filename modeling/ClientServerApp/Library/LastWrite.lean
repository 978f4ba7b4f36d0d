import Mathlib.Tactic

/-! Histories of writes to a map. What a map holds after a sequence of calls is decided, key by key,
by the last call on the key; the keys are compared by a given test. -/
namespace LastWrite

/-- One call that writes to a map. -/
inductive Call (K V : Type)
  | put (key : K) (value : V)
  | remove (key : K)
  deriving DecidableEq, Repr

namespace Call
variable {K V : Type}

def key : Call K V → K
  | .put key _ => key
  | .remove key => key

/-- What a read of the key finds right after the call. -/
def value : Call K V → Option V
  | .put _ value => some value
  | .remove _ => none

end Call

section History
variable {K V : Type} (same : K → K → Bool)

def lastCall (calls : List (Call K V)) (k : K) : Option (Call K V) :=
  (calls.filter fun c => same c.key k).getLast?

/-- The value last put for a key and not removed since. -/
def valueAfter (calls : List (Call K V)) (k : K) : Option V := (lastCall same calls k).bind Call.value

variable {same} {calls : List (Call K V)} {c : Call K V} {k : K}

@[simp] theorem valueAfter_nil : valueAfter same ([] : List (Call K V)) k = none := rfl

theorem lastCall_concat :
    lastCall same (calls ++ [c]) k = if same c.key k then some c else lastCall same calls k := by
  by_cases h : same c.key k <;> simp [lastCall,h]

@[simp] theorem valueAfter_concat :
    valueAfter same (calls ++ [c]) k = if same c.key k then c.value else valueAfter same calls k := by
  rw [valueAfter,lastCall_concat]
  split_ifs <;> rfl

end History

/-- A map whose calls succeed and change the reads as one call may, succeeds on every sequence of calls
and reads the history. -/
theorem foldlM_spec {S A K V ε : Type} {same : K → K → Bool} {step : S → A → Except ε S} (call : A → Call K V)
    {get : S → K → Option V} {P : A → Prop} {I : S → Prop}
    (hstep : ∀ s a, P a → I s → ∃ s', step s a = .ok s' ∧ I s' ∧
      ∀ k, get s' k = if same (call a).key k then (call a).value else get s k)
    {s : S} (hs : I s) (hempty : ∀ k, get s k = none) (as : List A) (has : ∀ a ∈ as, P a) :
    ∃ s', as.foldlM step s = .ok s' ∧ I s' ∧ ∀ k, get s' k = valueAfter same (as.map call) k := by
  induction as using List.reverseRecOn with
  | nil => exact ⟨s,rfl,hs,hempty⟩
  | append_singleton as a ih =>
    obtain ⟨mid,hrun,hmid,hget⟩ := ih fun a ha => has a (by simp [ha])
    obtain ⟨s',hlast,hs',hget'⟩ := hstep mid a (has a (by simp)) hmid
    refine ⟨s',?_,hs',fun k => ?_⟩
    · rw [List.foldlM_append,hrun]
      change ([a].foldlM step mid) = _
      rw [List.foldlM_cons,hlast]
      rfl
    · rw [hget',hget,List.map_append]
      exact valueAfter_concat.symm

end LastWrite
