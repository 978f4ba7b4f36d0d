import Mathlib.Data.Int.Log
import Mathlib.Data.Rat.Floor
import Mathlib.Tactic.Linarith
import Mathlib.Tactic.Positivity
import Mathlib.Tactic.NormNum

/-! Rounding of nonnegative rational numbers: to integers and to the numbers of the binary64 format, in both cases to
the nearest one and between two of them to the even one. -/
namespace ClientServerApp.Rounding

/-- The nearest natural number, the even one of two. -/
def roundHalfEven (x : ℚ) : ℕ :=
  let rest := x - ⌊x⌋₊
  if rest < 1/2 then ⌊x⌋₊
  else if 1/2 < rest then ⌊x⌋₊ + 1
  else if ⌊x⌋₊ % 2 = 0 then ⌊x⌋₊ else ⌊x⌋₊ + 1

/-- The exponent of the last of the 53 binary digits; below the normal numbers it is that of the least one. -/
def lastPlace (x : ℚ) : ℤ := max (Int.log 2 x - 52) (-1074)

/-- The nearest number of the binary64 format, for a number that is not too large for it. -/
def binary64 (x : ℚ) : ℚ := roundHalfEven (x / 2^lastPlace x) * 2^lastPlace x

lemma roundHalfEven_natCast (n : ℕ) : roundHalfEven n = n := by
  rw [roundHalfEven,Nat.floor_natCast,sub_self,if_pos (by norm_num)]

/-- Rounding moves a number by one half at most. -/
lemma abs_roundHalfEven_sub_le {x : ℚ} (hx : 0 ≤ x) : |(roundHalfEven x : ℚ) - x| ≤ 1/2 := by
  have hlow := Nat.floor_le hx
  have hhigh := Nat.lt_floor_add_one x
  rw [roundHalfEven,abs_le]
  split_ifs with hdown hup heven <;> push_cast <;> constructor <;> linarith

/-- A number that is closer than one half to an integer is rounded to it. -/
lemma roundHalfEven_eq {x : ℚ} (hx : 0 ≤ x) {n : ℕ} (h : |x - n| < 1/2) : roundHalfEven x = n := by
  have hnear := abs_le.mp (abs_roundHalfEven_sub_le hx)
  obtain ⟨hlow,hhigh⟩ := abs_lt.mp h
  have hlt : (roundHalfEven x : ℚ) < n + 1 := by linarith [hnear.2]
  have hgt : (n : ℚ) < roundHalfEven x + 1 := by linarith [hnear.1]
  have := Nat.lt_succ_iff.mp (show roundHalfEven x < n + 1 by exact_mod_cast hlt)
  have := Nat.lt_succ_iff.mp (show n < roundHalfEven x + 1 by exact_mod_cast hgt)
  omega

lemma binary64_nonneg (x : ℚ) : 0 ≤ binary64 x := mul_nonneg (Nat.cast_nonneg _) (zpow_nonneg zero_le_two _)

lemma binary64_zero : binary64 0 = 0 := by
  have hzero : roundHalfEven 0 = 0 := roundHalfEven_natCast 0
  rw [binary64,zero_div,hzero,Nat.cast_zero,zero_mul]

/-- Below a power of two the rounding error is at most half a last place. -/
theorem abs_binary64_sub_le {x : ℚ} (hx : 0 ≤ x) {k : ℤ} (hk : -1021 ≤ k) (h : x < 2^k) :
    |binary64 x - x| ≤ 2^(k-54) := by
  rcases hx.eq_or_lt with rfl | hpos
  · rw [binary64_zero,sub_self,abs_zero]
    exact zpow_nonneg zero_le_two _
  have hunit : (0 : ℚ) < 2^lastPlace x := zpow_pos two_pos _
  have hlast : lastPlace x ≤ k - 53 := by
    have hlog : Int.log 2 x < k := (Int.lt_zpow_iff_log_lt Nat.one_lt_two hpos).mp (by exact_mod_cast h)
    exact max_le (by omega) (by omega)
  calc |binary64 x - x| = |(roundHalfEven (x / 2^lastPlace x) : ℚ) - x / 2^lastPlace x| * 2^lastPlace x := by
        rw [binary64,← abs_of_pos hunit,← abs_mul,abs_of_pos hunit,sub_mul,div_mul_cancel₀ x hunit.ne']
    _ ≤ 1/2 * 2^(k-53) := by
        have hscaled := abs_roundHalfEven_sub_le (div_nonneg hx hunit.le)
        have hpower : (2 : ℚ)^lastPlace x ≤ 2^(k-53) := zpow_le_zpow_right₀ one_le_two hlast
        exact mul_le_mul hscaled hpower hunit.le (by norm_num)
    _ = 2^(k-54) := by
        rw [show k - 53 = k - 54 + 1 by ring,zpow_add_one₀ two_ne_zero]
        ring

example : binary64 (1/10) = 3602879701896397 / 2^55 := by decide +kernel

end ClientServerApp.Rounding
