import FreeVMS.Lib.Rounding

/-!
# Binary floating point formats

Numbers with a hidden bit: a sign, a biased exponent, and a fraction of a fixed width.  What a number
of one format is when it is truncated to the fraction of another one, and when that other format has
an exponent for it.
-/

namespace FreeVMS.Lib.BinaryFloat

open Scaled Rounding

/-- The numbers with the sign bit set are the negative ones. -/
def withSign (negative : Bool) (x : ℚ) : ℚ := if negative then -x else x

@[simp] theorem abs_withSign (negative : Bool) (x : ℚ) : |withSign negative x| = |x| := by
  cases negative with
  | false => rfl
  | true => exact abs_neg x

theorem truncates_withSign_iff {base t : ℕ} {negative : Bool} {x v : ℚ} :
    Truncates base t (withSign negative x) (withSign negative v) ↔ Truncates base t x v := by
  cases negative with
  | false => exact Iff.rfl
  | true => exact truncates_neg_iff

/-- A format: the width of its fraction, the bias, and the exponent fields of its normal numbers. -/
structure Format where
  fracBits : ℕ
  bias : ℤ
  minExp : ℤ
  maxExp : ℤ

namespace Format

/-- The number with an exponent field and a fraction, without its sign. -/
def magnitude (F : Format) (exp : ℤ) (frac : ℕ) : ℚ :=
  scaled 2 (2 ^ F.fracBits + frac) (exp - F.bias - F.fracBits)

/-- The number with a sign, an exponent field and a fraction. -/
def normal (F : Format) (negative : Bool) (exp : ℤ) (frac : ℕ) : ℚ :=
  withSign negative (F.magnitude exp frac)

/-- There is an exponent for numbers of this size. -/
def Representable (F : Format) (v : ℚ) : Prop :=
  scaled 2 1 (F.minExp - F.bias) ≤ |v| ∧ |v| < scaled 2 1 (F.maxExp + 1 - F.bias)

section

variable {F G : Format} {negative negative' : Bool} {exp exp' : ℤ} {frac frac' : ℕ}

theorem magnitude_pos (F : Format) (exp : ℤ) (frac : ℕ) : 0 < F.magnitude exp frac :=
  scaled_pos (by decide) (by positivity)

theorem abs_normal (F : Format) (negative : Bool) (exp : ℤ) (frac : ℕ) :
    |F.normal negative exp frac| = F.magnitude exp frac := by
  rw [normal, abs_withSign, abs_of_pos (F.magnitude_pos exp frac)]

theorem normal_ne_zero (F : Format) (negative : Bool) (exp : ℤ) (frac : ℕ) :
    F.normal negative exp frac ≠ 0 := by
  rw [← abs_pos, abs_normal]
  exact F.magnitude_pos exp frac

/-- A power of two by the side of a significand. -/
theorem scaled_one_shift (k : ℤ) (n : ℕ) :
    scaled 2 1 (k + n) = scaled 2 (2 ^ n) k := by
  have h := scaled_shift (show 0 < 2 by decide) 1 k n
  rw [one_mul] at h
  exact_mod_cast h.symm

theorem magnitude_ge (F : Format) (exp : ℤ) (frac : ℕ) :
    scaled 2 1 (exp - F.bias) ≤ F.magnitude exp frac := by
  have hshift := scaled_one_shift (exp - F.bias - F.fracBits) F.fracBits
  rw [sub_add_cancel] at hshift
  rw [hshift, magnitude, scaled_le_left_iff (by decide)]
  omega

theorem magnitude_lt (exp : ℤ) (hfrac : frac < 2 ^ F.fracBits) :
    F.magnitude exp frac < scaled 2 1 (exp + 1 - F.bias) := by
  have hshift := scaled_one_shift (exp - F.bias - F.fracBits) (F.fracBits + 1)
  rw [show exp - F.bias - F.fracBits + ((F.fracBits + 1 : ℕ) : ℤ) = exp + 1 - F.bias by
    push_cast; ring] at hshift
  rw [hshift, magnitude, scaled_lt_left_iff (by decide), pow_succ]
  have hcast : (frac : ℤ) < 2 ^ F.fracBits := by exact_mod_cast hfrac
  omega

theorem scaled_one_le_iff {j k : ℤ} : scaled 2 1 j ≤ scaled 2 1 k ↔ j ≤ k := by
  simp only [scaled, Int.cast_one, one_mul]
  exact zpow_le_zpow_iff_right₀ (by norm_num)

theorem scaled_one_lt_iff {j k : ℤ} : scaled 2 1 j < scaled 2 1 k ↔ j < k := by
  simp only [scaled, Int.cast_one, one_mul]
  exact zpow_lt_zpow_iff_right₀ (by norm_num)

/-- The format has an exponent for a number if the exponent field is one of its normal numbers. -/
theorem representable_normal_iff (hfrac : frac < 2 ^ F.fracBits) :
    F.Representable (F.normal negative exp frac) ↔ F.minExp ≤ exp ∧ exp ≤ F.maxExp := by
  have hge := F.magnitude_ge exp frac
  have hlt := magnitude_lt exp hfrac
  rw [Representable, abs_normal]
  constructor
  · intro ⟨hmin, hmax⟩
    have hlow := scaled_one_lt_iff.mp (hmin.trans_lt hlt)
    have hhigh := scaled_one_lt_iff.mp (hge.trans_lt hmax)
    omega
  · intro ⟨hmin, hmax⟩
    refine ⟨le_trans (scaled_one_le_iff.mpr ?_) hge, lt_of_lt_of_le hlt (scaled_one_le_iff.mpr ?_)⟩
    · omega
    · omega

/-- A number has one form. -/
theorem normal_inj (hfrac : frac < 2 ^ F.fracBits) (hfrac' : frac' < 2 ^ F.fracBits)
    (h : F.normal negative exp frac = F.normal negative' exp' frac') :
    negative = negative' ∧ exp = exp' ∧ frac = frac' := by
  have habs : F.magnitude exp frac = F.magnitude exp' frac' := by
    rw [← F.abs_normal negative exp frac, h, abs_normal]
  have hexp : exp = exp' := by
    have hge := F.magnitude_ge exp frac
    have hge' := F.magnitude_ge exp' frac'
    have hlow := scaled_one_lt_iff.mp (hge.trans_lt (habs ▸ magnitude_lt exp' hfrac'))
    have hhigh := scaled_one_lt_iff.mp (hge'.trans_lt (habs ▸ magnitude_lt exp hfrac))
    omega
  subst hexp
  rw [magnitude, magnitude, scaled_left_inj (by decide)] at habs
  refine ⟨?_, rfl, by omega⟩
  have hpos := F.magnitude_pos exp frac
  have hpos' := F.magnitude_pos exp frac'
  cases negative <;> cases negative' <;> simp only [normal, withSign] at h ⊢ <;> simp at h <;>
    linarith

/-- The fraction of `F` cut to the width of that of `G`, or filled up with zeros. -/
def cut (F G : Format) (frac : ℕ) : ℕ := frac * 2 ^ G.fracBits / 2 ^ F.fracBits

theorem cut_lt (F G : Format) (hfrac : frac < 2 ^ F.fracBits) : F.cut G frac < 2 ^ G.fracBits := by
  rw [cut, Nat.div_lt_iff_lt_mul (by positivity), Nat.mul_comm]
  exact Nat.mul_lt_mul_of_pos_left hfrac (by positivity)

/-- **Truncation** of a number of one format to the fraction of another. -/
theorem truncates_normal (hfrac : frac < 2 ^ F.fracBits) :
    Truncates 2 (G.fracBits + 1) (F.normal negative exp frac)
      (G.normal negative (exp - F.bias + G.bias) (F.cut G frac)) := by
  rw [normal, normal, truncates_withSign_iff]
  have hcut := F.cut_lt G hfrac
  -- both significands side by side, with room for all their bits
  have hleft : F.magnitude exp frac = scaled 2 (((2 ^ F.fracBits + frac) * 2 ^ G.fracBits : ℕ) : ℤ)
      (exp - F.bias - F.fracBits - G.fracBits) := by
    have h := scaled_shift (show 0 < 2 by decide) (2 ^ F.fracBits + frac)
      (exp - F.bias - F.fracBits - G.fracBits) G.fracBits
    rw [sub_add_cancel] at h
    rw [magnitude, ← h]
    push_cast
    rfl
  have hright : ∀ m : ℕ, scaled 2 (m : ℤ) (exp - F.bias - G.fracBits) =
      scaled 2 ((m * 2 ^ F.fracBits : ℕ) : ℤ) (exp - F.bias - F.fracBits - G.fracBits) := by
    intro m
    have h := scaled_shift (show 0 < 2 by decide) m
      (exp - F.bias - F.fracBits - G.fracBits) F.fracBits
    rw [show exp - F.bias - F.fracBits - G.fracBits + (F.fracBits : ℤ) =
      exp - F.bias - G.fracBits by ring] at h
    rw [← h]
    push_cast
    rfl
  have hle : F.cut G frac * 2 ^ F.fracBits ≤ frac * 2 ^ G.fracBits := Nat.div_mul_le_self _ _
  have hlt : frac * 2 ^ G.fracBits < (F.cut G frac + 1) * 2 ^ F.fracBits :=
    (Nat.div_lt_iff_lt_mul (by positivity)).mp (Nat.lt_succ_self _)
  have hmagnitude : G.magnitude (exp - F.bias + G.bias) (F.cut G frac) =
      scaled 2 ((2 ^ G.fracBits + F.cut G frac : ℕ) : ℤ) (exp - F.bias - G.fracBits) := by
    rw [magnitude, add_sub_cancel_right]
    push_cast
    rfl
  have hleads : Leads 2 (G.fracBits + 1) ((2 ^ G.fracBits + F.cut G frac : ℕ) : ℤ) 0
      (exp - F.bias - G.fracBits) (F.magnitude exp frac) := by
    refine ⟨?_, ?_, ?_, ?_, ?_⟩
    · have hpos : 0 < 2 ^ G.fracBits := by positivity
      omega
    · push_cast
      rw [pow_succ]
      omega
    · push_cast
      rw [pow_succ]
      have hcast : (F.cut G frac : ℤ) < 2 ^ G.fracBits := by exact_mod_cast hcut
      omega
    · rw [hleft, hright, scaled_le_left_iff (by decide)]
      norm_cast
      rw [Nat.add_mul, Nat.add_mul, Nat.mul_comm (2 ^ F.fracBits)]
      exact Nat.add_le_add_left hle _
    · have hsucc := hright (2 ^ G.fracBits + F.cut G frac + 1)
      rw [Nat.cast_add_one] at hsucc
      rw [hleft, hsucc, scaled_lt_left_iff (by decide)]
      norm_cast
      rw [Nat.add_assoc, Nat.add_mul, Nat.add_mul, Nat.mul_comm (2 ^ F.fracBits)]
      exact Nat.add_lt_add_left hlt _
  rw [hmagnitude, hleads.truncates_iff (by decide)]
  refine ⟨rfl, ?_⟩
  have hlt := hleads.lt
  simpa using hlt

/-- A number whose fraction has room in the other format. -/
theorem normal_of_cut (negative : Bool) (exp : ℤ) {frac : ℕ}
    (h : frac * 2 ^ G.fracBits % 2 ^ F.fracBits = 0) :
    F.normal negative exp frac = G.normal negative (exp - F.bias + G.bias) (F.cut G frac) := by
  have hcut : F.cut G frac * 2 ^ F.fracBits = frac * 2 ^ G.fracBits :=
    Nat.div_mul_cancel (Nat.dvd_of_mod_eq_zero h)
  have hleft := scaled_shift (show 0 < 2 by decide) (2 ^ F.fracBits + frac)
    (exp - F.bias - F.fracBits - G.fracBits) G.fracBits
  have hright := scaled_shift (show 0 < 2 by decide) (2 ^ G.fracBits + F.cut G frac)
    (exp - F.bias - F.fracBits - G.fracBits) F.fracBits
  rw [normal, normal, magnitude, magnitude]
  congr 1
  rw [show exp - F.bias - (F.fracBits : ℤ) = exp - F.bias - F.fracBits - G.fracBits + G.fracBits by
    ring, ← hleft, show exp - F.bias + G.bias - G.bias - (G.fracBits : ℤ) =
    exp - F.bias - F.fracBits - G.fracBits + F.fracBits by ring, ← hright]
  congr 1
  have hcast : (F.cut G frac : ℤ) * 2 ^ F.fracBits = frac * 2 ^ G.fracBits := by exact_mod_cast hcut
  push_cast
  rw [add_mul, add_mul, hcast, mul_comm ((2 : ℤ) ^ F.fracBits)]

theorem truncates_normal_iff (hfrac : frac < 2 ^ F.fracBits) {v : ℚ} :
    Truncates 2 (G.fracBits + 1) (F.normal negative exp frac) v ↔
      v = G.normal negative (exp - F.bias + G.bias) (F.cut G frac) := by
  constructor
  · intro h
    exact h.unique (truncates_normal hfrac)
  · rintro rfl
    exact truncates_normal hfrac

end

end Format

end FreeVMS.Lib.BinaryFloat
