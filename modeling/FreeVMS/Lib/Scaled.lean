import Mathlib.Algebra.Order.Field.Power
import Mathlib.Data.Rat.Cast.Order
import Mathlib.Tactic.Ring
import Mathlib.Tactic.FieldSimp

/-!
# Numbers with an exponent

An integer times a power of a base, as floating decimals are written. A number that is not zero has
one such form whose integer the base does not divide.
-/

namespace FreeVMS.Lib.Scaled

/-- `n * base ^ k` -/
def scaled (base : ℕ) (n k : ℤ) : ℚ := n * (base : ℚ) ^ k

variable {base : ℕ}

@[simp] theorem scaled_zero (base : ℕ) (k : ℤ) : scaled base 0 k = 0 := by
  simp [scaled]

theorem scaled_add (base : ℕ) (m n k : ℤ) :
    scaled base (m + n) k = scaled base m k + scaled base n k := by
  simp only [scaled, Int.cast_add]
  ring

theorem scaled_sub (base : ℕ) (m n k : ℤ) :
    scaled base (m - n) k = scaled base m k - scaled base n k := by
  simp only [scaled, Int.cast_sub]
  ring

theorem scaled_neg (base : ℕ) (n k : ℤ) : scaled base (-n) k = -scaled base n k := by
  simp only [scaled, Int.cast_neg]
  ring

theorem scaled_mul (hb : 0 < base) (m n j k : ℤ) :
    scaled base m j * scaled base n k = scaled base (m * n) (j + k) := by
  have hne : (base : ℚ) ≠ 0 := Nat.cast_ne_zero.mpr hb.ne'
  simp only [scaled, Int.cast_mul, zpow_add₀ hne]
  ring

/-- Digits behind the integer go to the exponent. -/
theorem scaled_shift (hb : 0 < base) (n k : ℤ) (t : ℕ) :
    scaled base (n * (base : ℤ) ^ t) k = scaled base n (k + t) := by
  have hne : (base : ℚ) ≠ 0 := Nat.cast_ne_zero.mpr hb.ne'
  simp only [scaled, Int.cast_mul, Int.cast_pow, Int.cast_natCast, zpow_add₀ hne, zpow_natCast]
  ring

theorem scaled_left_inj (hb : 0 < base) {m n k : ℤ} :
    scaled base m k = scaled base n k ↔ m = n := by
  have hne : (base : ℚ) ^ k ≠ 0 := zpow_ne_zero k (Nat.cast_ne_zero.mpr hb.ne')
  simp only [scaled, mul_eq_mul_right_iff, hne, or_false, Int.cast_inj]

theorem scaled_eq_zero_iff (hb : 0 < base) {n k : ℤ} : scaled base n k = 0 ↔ n = 0 := by
  rw [← scaled_zero base k, scaled_left_inj hb]

theorem scaled_right_inj (hb : 1 < base) {n j k : ℤ} (hn : n ≠ 0) :
    scaled base n j = scaled base n k ↔ j = k := by
  have hcast : (1 : ℚ) < base := by exact_mod_cast hb
  have hpos : (0 : ℚ) < base := lt_trans one_pos hcast
  simp only [scaled, mul_eq_mul_left_iff, Int.cast_eq_zero, hn, or_false]
  exact zpow_right_inj₀ hpos hcast.ne'

/-- The smaller exponent belongs to the integer with more digits. -/
theorem dvd_of_scaled_eq (hb : 0 < base) {m n j k : ℤ} (h : scaled base m j = scaled base n k)
    (hlt : j < k) : (base : ℤ) ∣ m := by
  obtain ⟨t, ht⟩ := Int.eq_ofNat_of_zero_le (show 0 ≤ k - j - 1 by omega)
  have hk : k = j + ((t + 1 : ℕ) : ℤ) := by
    push_cast
    omega
  rw [hk, ← scaled_shift hb, scaled_left_inj hb] at h
  rw [h, pow_succ, ← mul_assoc]
  exact dvd_mul_left _ _

theorem scaled_inj (hb : 1 < base) {m n j k : ℤ} (hm : ¬ (base : ℤ) ∣ m) (hn : ¬ (base : ℤ) ∣ n)
    (h : scaled base m j = scaled base n k) : m = n ∧ j = k := by
  have hpos : 0 < base := lt_trans one_pos hb
  rcases lt_trichotomy j k with hlt | rfl | hlt
  · exact absurd (dvd_of_scaled_eq hpos h hlt) hm
  · exact ⟨(scaled_left_inj hpos).mp h, rfl⟩
  · exact absurd (dvd_of_scaled_eq hpos h.symm hlt) hn

end FreeVMS.Lib.Scaled
