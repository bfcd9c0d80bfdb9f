import Mathlib.Data.Nat.Digits.Lemmas
import Mathlib.Tactic.Ring

/-!
# Division by hand

A dividend of which digits are brought down one after the other: what a further digit does to the
quotient and to the remainder, and how many digits of the quotient are not zero.
-/

namespace FreeVMS.Lib.LongDivision

variable {base n d x : ℕ}

/-- A further digit of the dividend, in terms of the remainder. -/
theorem split_step (base n d x : ℕ) :
    base * n + x = base * (n % d) + x + d * (base * (n / d)) := by
  calc base * n + x = base * (n % d + d * (n / d)) + x := by rw [Nat.mod_add_div]
    _ = base * (n % d) + x + d * (base * (n / d)) := by ring

/-- It makes a further digit of the quotient. -/
theorem div_step (hd : 0 < d) :
    (base * n + x) / d = base * (n / d) + (base * (n % d) + x) / d := by
  rw [split_step base n d x, Nat.add_mul_div_left _ _ hd, Nat.add_comm]

theorem mod_step : (base * n + x) % d = (base * (n % d) + x) % d := by
  rw [split_step base n d x, Nat.add_mul_mod_self_left]

theorem digit_lt (hd : 0 < d) (hx : x < base) : (base * (n % d) + x) / d < base := by
  rw [Nat.div_lt_iff_lt_mul hd]
  have hmod : n % d + 1 ≤ d := Nat.mod_lt n hd
  calc base * (n % d) + x < base * (n % d) + base := by omega
    _ = base * (n % d + 1) := by ring
    _ ≤ base * d := Nat.mul_le_mul_left base hmod

/-! ### Digits other than zero -/

/-- How many digits of a number are not zero. -/
def nonzeros (base n : ℕ) : ℕ := (Nat.digits base n).countP (· ≠ 0)

@[simp] theorem nonzeros_zero (base : ℕ) : nonzeros base 0 = 0 := by
  simp [nonzeros]

theorem nonzeros_step (hbase : 1 < base) (hx : x < base) :
    nonzeros base (base * n + x) = nonzeros base n + if x = 0 then 0 else 1 := by
  by_cases hzero : x = 0 ∧ n = 0
  · rw [hzero.1, hzero.2, Nat.mul_zero]
    rfl
  · have hne : x ≠ 0 ∨ n ≠ 0 := by
      rw [← not_and_or]
      exact hzero
    rw [nonzeros, Nat.add_comm (base * n), Nat.digits_add base hbase x n hx hne, List.countP_cons]
    by_cases h : x = 0
    · simp [h, nonzeros]
    · simp [h, nonzeros]

/-- A number of at most `k` digits. -/
theorem nonzeros_le (hbase : 1 < base) {k : ℕ} (h : n < base ^ k) : nonzeros base n ≤ k := by
  have hlen : (Nat.digits base n).length ≤ k := (Nat.digits_length_le_iff hbase n).mpr h
  exact List.countP_le_length.trans hlen

end FreeVMS.Lib.LongDivision
