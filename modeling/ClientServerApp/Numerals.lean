import ClientServerApp.Base

/-! Decimal numerals as `printf` writes them, and texts in which a character separates the parts. -/
namespace ClientServerApp

/-- The number that a sequence of digits stands for. -/
def numeralValue (digits : List UInt8) : ℕ := digits.foldl (fun acc c => 10*acc + (c.toNat - (chr '0').toNat)) 0

lemma decimal_eq (n : ℕ) : decimal n = (Nat.toDigits 10 n).map chr := by
  rw [decimal,chars,Nat.toList_repr]

/-- A digit keeps its code as a byte. -/
lemma chr_toNat_of_isDigit {c : Char} (h : c.isDigit) : (chr c).toNat = c.toNat := by
  have hle : c.toNat ≤ 57 := by
    simp only [Char.isDigit,Bool.and_eq_true,decide_eq_true_eq] at h
    exact h.2
  rw [chr,Nat.toUInt8_eq,UInt8.toNat_ofNat']
  omega

theorem numeralValue_decimal (n : ℕ) : numeralValue (decimal n) = n := by
  have hdigits : ∀ c ∈ Nat.toDigits 10 n, c.isDigit := fun c => Nat.isDigit_of_mem_toDigits (by decide) (by decide)
  rw [numeralValue,decimal_eq,List.foldl_map]
  refine Eq.trans (List.foldl_ext _ (fun acc c => 10*acc + (c.toNat - '0'.toNat)) 0 fun acc c hc => ?_) ?_
  · rw [chr_toNat_of_isDigit (hdigits c hc)]
    rfl
  · rw [← Nat.ofDigitChars_eq_foldl]
    exact Nat.ofDigitChars_ten_toDigits

theorem decimal_injective : Function.Injective decimal := Function.LeftInverse.injective numeralValue_decimal

lemma digit_of_mem_decimal {n : ℕ} {c : UInt8} (h : c ∈ decimal n) : chr '0' ≤ c ∧ c ≤ chr '9' := by
  rw [decimal_eq,List.mem_map] at h
  obtain ⟨d,hd,rfl⟩ := h
  have hdigit := Nat.isDigit_of_mem_toDigits (by decide) (by decide) hd
  have hcode := chr_toNat_of_isDigit hdigit
  simp only [Char.isDigit,Bool.and_eq_true,decide_eq_true_eq] at hdigit
  rw [UInt8.le_iff_toNat_le,UInt8.le_iff_toNat_le,hcode]
  exact hdigit

/-- A character that is no digit does not occur in a numeral. -/
lemma not_mem_decimal {c : UInt8} (h : ¬ (chr '0' ≤ c ∧ c ≤ chr '9')) (n : ℕ) : c ∉ decimal n :=
  fun hc => h (digit_of_mem_decimal hc)

/-- The part of a text before its first separator, and the part behind it. -/
lemma append_separator_inj {sep : UInt8} {x y u v : List UInt8} (hx : sep ∉ x) (hy : sep ∉ y) :
    x ++ sep :: u = y ++ sep :: v ↔ x = y ∧ u = v := by
  constructor
  · intro h
    have hsplit := congrArg (List.splitOn sep) h
    rw [List.splitOn_append_cons_self_of_not_mem hx,List.splitOn_append_cons_self_of_not_mem hy] at hsplit
    obtain rfl := (List.cons.inj hsplit).1
    exact ⟨rfl,(List.cons.inj (List.append_cancel_left h)).2⟩
  · rintro ⟨rfl,rfl⟩
    rfl

end ClientServerApp
