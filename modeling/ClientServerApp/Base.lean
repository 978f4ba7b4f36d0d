import ClientServerApp.Library.Traced
import ClientServerApp.Library.Words
import Mathlib.Data.List.TakeWhile

/-! What the programs share: how a process ends, characters and C strings. -/
namespace ClientServerApp

/-- Why a process does not go on. -/
inductive Halt
  /-- A failed `DIE` check: the description is printed and the process exits with `errno`. -/
  | die (call : String)
  /-- `exit(0)`. -/
  | exit
  /-- The C program has no defined behaviour from here on: an access outside an array, a null
  pointer dereference. -/
  | undefined
  /-- The bound on the recursion depth of the model was reached. -/
  | outOfFuel
  deriving DecidableEq, Repr

abbrev Outcome := Except Halt

/-- A sequence succeeds exactly when both parts do. -/
theorem Outcome.bind_eq_ok {α β : Type} {x : Outcome α} {f : α → Outcome β} {b : β} :
    x >>= f = .ok b ↔ ∃ a, x = .ok a ∧ f a = .ok b := by
  cases x with
  | ok a =>
    constructor
    · intro h
      exact ⟨a,rfl,h⟩
    · rintro ⟨_,⟨⟩,h⟩
      exact h
  | error e =>
    constructor
    · intro h
      cases h
    · rintro ⟨_,h,-⟩
      cases h

/-- The value behind a pointer or in an array, when there is one. -/
def defined {α : Type} : Option α → Outcome α
  | some a => .ok a
  | none => .error .undefined

@[simp] theorem defined_some {α : Type} (a : α) : defined (some a) = .ok a := rfl
@[simp] theorem defined_none {α : Type} : defined (none : Option α) = .error .undefined := rfl

/-- A `char`, by its bit pattern. -/
def chr (c : Char) : UInt8 := c.toNat.toUInt8

/-- The characters of a string literal, without its NUL. -/
def chars (s : String) : List UInt8 := s.toList.map chr

/-- A number as `printf` writes it. -/
def decimal (n : ℕ) : List UInt8 := chars (Nat.repr n)

def slash : UInt8 := chr '/'
def plus : UInt8 := chr '+'
def star : UInt8 := chr '*'

/-- The characters before the first NUL. -/
def cString (b : List UInt8) : List UInt8 := b.takeWhile (· ≠ 0)

/-- The tokens that `strtok` cuts out of a line at spaces and newlines. -/
def tokens (line : List UInt8) : List (List UInt8) :=
  ((cString line).splitOnP fun c => c == chr ' ' || c == chr '\n').filter (· ≠ [])

/-- The C string at the start of an array; without a NUL, reading it leaves the array. -/
def readString (b : List UInt8) : Outcome (List UInt8) :=
  if 0 ∈ b then .ok (cString b) else .error .undefined

lemma readString_ok {b : List UInt8} (h : 0 ∈ b) : readString b = .ok (cString b) := if_pos h

lemma readString_eq_ok_iff {b s : List UInt8} : readString b = .ok s ↔ 0 ∈ b ∧ cString b = s := by
  unfold readString
  split_ifs with h
  · simp [h]
  · simp [h]

lemma zero_not_mem_cString (b : List UInt8) : 0 ∉ cString b := by
  intro h
  simpa using List.mem_takeWhile_imp h

lemma cString_eq_self {b : List UInt8} (h : 0 ∉ b) : cString b = b := by
  refine List.takeWhile_eq_self_iff.mpr fun x hx => ?_
  have hne : x ≠ 0 := fun he => h (he ▸ hx)
  simpa using hne

@[simp] theorem cString_append_zero (a b : List UInt8) : cString (a ++ 0 :: b) = cString a := by
  induction a with
  | nil => simp [cString]
  | cons x a ih =>
    by_cases hx : x = 0
    · simp [cString,hx]
    · simpa [cString,hx] using ih

lemma cString_length_le (b : List UInt8) : (cString b).length ≤ b.length :=
  (List.takeWhile_prefix _).length_le

end ClientServerApp
