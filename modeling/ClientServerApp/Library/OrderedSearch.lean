import Mathlib.Tactic

/-! Searching a list in order with a test that may fail with an error: the first element that
is not answered by `false` decides. The search is `List.anyM` in the `Except` monad. -/
namespace OrderedSearch
variable {ε α β : Type} {f g : α → Except ε Bool} {xs ys : List α}

/-- Short-circuit disjunction of two answers that may be errors. -/
def orElse (x y : Except ε Bool) : Except ε Bool :=
  match x with
  | .ok false => y
  | .ok true => .ok true
  | .error e => .error e

@[simp] theorem orElse_false (y : Except ε Bool) : orElse (.ok false) y = y := rfl
@[simp] theorem orElse_true (y : Except ε Bool) : orElse (.ok true) y = .ok true := rfl
@[simp] theorem orElse_error (e : ε) (y : Except ε Bool) : orElse (.error e) y = .error e := rfl

lemma orElse_assoc (x y z : Except ε Bool) : orElse (orElse x y) z = orElse x (orElse y z) := by
  rcases x with e | _ | _ <;> rfl

@[simp] theorem orElse_ok_false (x : Except ε Bool) : orElse x (.ok false) = x := by
  rcases x with e | _ | _ <;> rfl

/-- The search itself. -/
def search (f : α → Except ε Bool) : List α → Except ε Bool
  | [] => .ok false
  | x :: xs => orElse (f x) (search f xs)

@[simp] theorem search_nil : search f [] = .ok false := rfl
@[simp] theorem search_cons (x : α) : search f (x :: xs) = orElse (f x) (search f xs) := rfl

@[simp] theorem search_append : search f (xs ++ ys) = orElse (search f xs) (search f ys) := by
  induction xs with
  | nil => rfl
  | cons x xs ih => simp [ih,orElse_assoc]

@[simp] theorem search_map (h : β → α) (xs : List β) :
    search f (xs.map h) = search (fun x => f (h x)) xs := by
  induction xs with
  | nil => rfl
  | cons x xs ih => simp [ih]

theorem search_flatMap (h : β → List α) (xs : List β) :
    search f (xs.flatMap h) = search (fun x => search f (h x)) xs := by
  induction xs with
  | nil => rfl
  | cons x xs ih => simp [ih]

theorem search_congr (h : ∀ x ∈ xs, f x = g x) : search f xs = search g xs := by
  induction xs with
  | nil => rfl
  | cons x xs ih =>
    rw [search_cons,search_cons,h x (by simp),ih (fun y hy => h y (by simp [hy]))]

/-- Nothing is found when every element is answered by `false`. -/
theorem search_eq_false (h : ∀ x ∈ xs, f x = .ok false) : search f xs = .ok false := by
  induction xs with
  | nil => rfl
  | cons x xs ih =>
    rw [search_cons,h x (by simp),orElse_false]
    exact ih (fun y hy => h y (by simp [hy]))

/-- Without errors the search decides existence. -/
theorem search_total {p : α → Bool} (h : ∀ x ∈ xs, f x = .ok (p x)) :
    search f xs = .ok (xs.any p) := by
  induction xs with
  | nil => rfl
  | cons x xs ih =>
    rw [search_cons,h x (by simp),ih (fun y hy => h y (by simp [hy])),List.any_cons]
    cases p x <;> rfl

/-- The search is answered exactly when no failing element comes before the first hit. -/
theorem search_isOk_iff {hit bad : α → Prop} (hhit : ∀ x ∈ xs, f x = .ok true ↔ hit x)
    (hbad : ∀ x ∈ xs, (∃ e, f x = .error e) ↔ bad x) :
    (∃ b, search f xs = .ok b) ↔
      ∀ l q r, xs = l ++ q :: r → (∀ p ∈ l, ¬ hit p) → ¬ bad q := by
  induction xs with
  | nil => simp
  | cons x xs ih =>
    have ih := ih (fun y hy => hhit y (by simp [hy])) (fun y hy => hbad y (by simp [hy]))
    have hx := hhit x (by simp)
    have hb := hbad x (by simp)
    rw [search_cons]
    cases hf : f x with
    | error e =>
      constructor
      · rintro ⟨b,h⟩
        simp at h
      · intro h
        exact absurd (hb.mp ⟨e,hf⟩) (h [] x xs rfl (by simp))
    | ok b =>
      have hnb : ¬ bad x := by rw [← hb,hf]; simp
      cases b with
      | true =>
        have hh : hit x := hx.mp hf
        refine ⟨fun _ => ?_,fun _ => ⟨true,rfl⟩⟩
        intro l q r he hl
        cases l with
        | nil => cases he; exact hnb
        | cons y l => cases he; exact absurd hh (hl x (by simp))
      | false =>
        have hh : ¬ hit x := by rw [← hx,hf]; simp
        rw [orElse_false,ih]
        constructor
        · intro h l q r he hl
          cases l with
          | nil => cases he; exact hnb
          | cons y l =>
            cases he
            exact h l q r rfl (fun p hp => hl p (by simp [hp]))
        · rintro h l q r rfl hl
          refine h (x :: l) q r rfl ?_
          intro p hp
          rcases List.mem_cons.mp hp with rfl | hp
          · exact hh
          · exact hl p hp

end OrderedSearch
