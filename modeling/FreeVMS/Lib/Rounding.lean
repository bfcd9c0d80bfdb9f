import FreeVMS.Lib.Scaled
import Mathlib.Tactic.Linarith
import Mathlib.Tactic.Positivity

/-!
# Significant digits

Numbers of at most so many significant digits to a base, and what it means for one of them to be a
number's truncation toward zero, or the nearest to it with halves away from zero.  Where the first
digits of a number are known, there is one rule for each: which power goes with these digits, and
how much may follow them.
-/

namespace FreeVMS.Lib.Rounding

open FreeVMS.Lib.Scaled

variable {base t : ℕ}

/-- A number of at most `t` significant digits. -/
def Significant (base t : ℕ) (v : ℚ) : Prop :=
  ∃ m k : ℤ, m.natAbs < base ^ t ∧ v = scaled base m k

/-- The number with the most of `x` that `t` digits can hold. -/
structure Truncates (base t : ℕ) (x v : ℚ) : Prop where
  significant : Significant base t v
  sign : 0 ≤ v * x
  le : |v| ≤ |x|
  largest : ∀ w, Significant base t w → |w| ≤ |x| → |w| ≤ |v|

/-- The nearest number of `t` digits, the larger one of two. -/
structure Rounds (base t : ℕ) (x v : ℚ) : Prop where
  significant : Significant base t v
  nearest : ∀ w, Significant base t w → |v - x| ≤ |w - x|
  away : ∀ w, Significant base t w → |w - x| = |v - x| → |w| ≤ |v|

/-! ### Signs -/

theorem Significant.neg {v : ℚ} (h : Significant base t v) : Significant base t (-v) := by
  obtain ⟨m, k, hm, rfl⟩ := h
  exact ⟨-m, k, by rwa [Int.natAbs_neg], (scaled_neg base m k).symm⟩

theorem Significant.abs {v : ℚ} (h : Significant base t v) : Significant base t |v| := by
  rcases abs_choice v with heq | heq
  · rwa [heq]
  · rw [heq]
    exact h.neg

theorem Truncates.neg {x v : ℚ} (h : Truncates base t x v) : Truncates base t (-x) (-v) := by
  refine ⟨h.significant.neg, ?_, ?_, ?_⟩
  · rw [neg_mul_neg]
    exact h.sign
  · rw [abs_neg, abs_neg]
    exact h.le
  · intro w hw
    rw [abs_neg, abs_neg]
    exact h.largest w hw

theorem Rounds.neg {x v : ℚ} (h : Rounds base t x v) : Rounds base t (-x) (-v) := by
  have hdist : ∀ w : ℚ, |w - -x| = |-w - x| := by
    intro w
    rw [← abs_neg]
    congr 1
    ring
  refine ⟨h.significant.neg, ?_, ?_⟩
  · intro w hw
    rw [hdist, hdist, neg_neg]
    exact h.nearest (-w) hw.neg
  · intro w hw heq
    rw [hdist, hdist, neg_neg] at heq
    rw [abs_neg, ← abs_neg w]
    exact h.away (-w) hw.neg heq

theorem truncates_neg_iff {x v : ℚ} : Truncates base t (-x) (-v) ↔ Truncates base t x v := by
  constructor
  · intro h
    simpa using h.neg
  · exact Truncates.neg

theorem rounds_neg_iff {x v : ℚ} : Rounds base t (-x) (-v) ↔ Rounds base t x v := by
  constructor
  · intro h
    simpa using h.neg
  · exact Rounds.neg

/-! ### Numbers that have room -/

/-- What has room is its own truncation. -/
theorem truncates_exact_iff {x v : ℚ} (hx : Significant base t x) :
    Truncates base t x v ↔ v = x := by
  constructor
  · intro h
    have habs := le_antisymm h.le (h.largest x hx (le_refl _))
    rcases abs_eq_abs.mp habs with heq | hneg
    · exact heq
    · have hsign := h.sign
      rw [hneg, neg_mul] at hsign
      have hzero : x = 0 := by nlinarith [mul_self_nonneg x]
      rw [hneg, hzero, neg_zero]
  · rintro rfl
    exact ⟨hx, mul_self_nonneg v, le_refl _, fun _ _ hw => hw⟩

/-- There is one truncation. -/
theorem Truncates.unique {x v w : ℚ} (hv : Truncates base t x v) (hw : Truncates base t x w) :
    v = w := by
  have habs : |v| = |w| :=
    le_antisymm (hw.largest v hv.significant hv.le) (hv.largest w hw.significant hw.le)
  rcases abs_eq_abs.mp habs with heq | hneg
  · exact heq
  · -- both lie on the side of `x`, so they are zero
    have hsign := hv.sign
    have hsame := hw.sign
    rw [hneg, neg_mul] at hsign
    have hzero : w * x = 0 := by linarith
    rcases mul_eq_zero.mp hzero with rfl | rfl
    · rw [hneg, neg_zero]
    · have hle := hw.le
      rw [abs_zero, abs_nonpos_iff] at hle
      rw [hneg, hle, neg_zero]

/-- And it is nearest to itself. -/
theorem rounds_exact_iff {x v : ℚ} (hx : Significant base t x) : Rounds base t x v ↔ v = x := by
  constructor
  · intro h
    have hnear := h.nearest x hx
    rw [sub_self, abs_zero] at hnear
    exact sub_eq_zero.mp (abs_eq_zero.mp (le_antisymm hnear (abs_nonneg _)))
  · rintro rfl
    refine ⟨hx, fun w _ => by simp, fun w _ heq => ?_⟩
    rw [sub_self, abs_zero, abs_eq_zero, sub_eq_zero] at heq
    rw [heq]

/-- There is room for a power. -/
theorem significant_pow (hbase : 2 ≤ base) (ht : t ≠ 0) (k : ℤ) :
    Significant base t (scaled base 1 k) := by
  refine ⟨1, k, ?_, rfl⟩
  exact Nat.one_lt_pow ht hbase

/-- Where there is room for something below a number, it is not truncated to zero. -/
theorem not_truncates_zero {w x : ℚ} (hw : Significant base t w) (hpos : 0 < w) (hle : w ≤ x) :
    ¬ Truncates base t x 0 := by
  intro h
  have hmost := h.largest w hw (abs_le_abs_of_nonneg hpos.le hle)
  rw [abs_zero, abs_of_pos hpos] at hmost
  linarith

/-- And not rounded to it. -/
theorem not_rounds_zero {w x : ℚ} (hw : Significant base t w) (hpos : 0 < w) (hle : w ≤ x) :
    ¬ Rounds base t x 0 := by
  intro h
  have hnear := h.nearest w hw
  rw [zero_sub, abs_neg, abs_of_pos (hpos.trans_le hle), abs_sub_comm,
    abs_of_nonneg (by linarith)] at hnear
  linarith

theorem pow_ge_base (base : ℕ) {i : ℕ} (hi : i ≠ 0) : (base : ℤ) ≤ (base : ℤ) ^ i := by
  exact_mod_cast Nat.le_self_pow hi base

section Positive

variable (hbase : 0 < base)
include hbase

theorem significant_zero : Significant base t 0 :=
  ⟨0, 0, Nat.pow_pos hbase, (scaled_zero base 0).symm⟩

/-- A rounded number does not change sides. -/
theorem Rounds.sign {x v : ℚ} (h : Rounds base t x v) : 0 ≤ v * x := by
  have hzero := h.nearest 0 (significant_zero hbase)
  rw [zero_sub, abs_neg] at hzero
  have hsq := sq_le_sq.mpr hzero
  nlinarith [sq_nonneg v]

/-! ### Numbers with a power -/

theorem scaled_le_left_iff {m n k : ℤ} : scaled base m k ≤ scaled base n k ↔ m ≤ n := by
  have hpos : (0 : ℚ) < (base : ℚ) ^ k := zpow_pos (Nat.cast_pos.mpr hbase) k
  rw [scaled, scaled, mul_le_mul_iff_left₀ hpos, Int.cast_le]

theorem scaled_lt_left_iff {m n k : ℤ} : scaled base m k < scaled base n k ↔ m < n := by
  have hpos : (0 : ℚ) < (base : ℚ) ^ k := zpow_pos (Nat.cast_pos.mpr hbase) k
  rw [scaled, scaled, mul_lt_mul_iff_left₀ hpos, Int.cast_lt]

theorem scaled_pos {n k : ℤ} (hn : 0 < n) : 0 < scaled base n k := by
  rw [← scaled_zero base k, scaled_lt_left_iff hbase]
  exact hn

/-- The smaller power of two, brought to the larger one's place. -/
theorem scaled_of_le {j k : ℤ} (h : j ≤ k) (n : ℤ) :
    scaled base n k = scaled base (n * (base : ℤ) ^ (k - j).toNat) j := by
  rw [scaled_shift hbase]
  congr 1
  omega

/-- Digits decide about their power. -/
theorem exponent_unique (hbase2 : 2 ≤ base) {m e f : ℤ} (hm : 1 ≤ m)
    (hlow : scaled base m f ≤ scaled base m e) (hhigh : scaled base m e < scaled base (m + 1) f) :
    e = f := by
  have hb : (2 : ℤ) ≤ base := by exact_mod_cast hbase2
  rcases lt_trichotomy e f with hlt | heq | hgt
  · rw [scaled_of_le hbase hlt.le, scaled_le_left_iff hbase] at hlow
    have hpow := pow_ge_base base (show (f - e).toNat ≠ 0 by omega)
    nlinarith
  · exact heq
  · rw [scaled_of_le hbase hgt.le, scaled_lt_left_iff hbase] at hhigh
    have hpow := pow_ge_base base (show (e - f).toNat ≠ 0 by omega)
    nlinarith

/-- A number has its first digits in one place only. -/
theorem place_unique (hbase2 : 2 ≤ base) {m e f : ℤ} (hm : 1 ≤ m) {x : ℚ}
    (he : scaled base m e ≤ x ∧ x < scaled base (m + 1) e)
    (hf : scaled base m f ≤ x ∧ x < scaled base (m + 1) f) : e = f := by
  rcases le_total (scaled base m f) (scaled base m e) with hle | hle
  · exact exponent_unique hbase hbase2 hm hle (he.1.trans_lt hf.2)
  · exact (exponent_unique hbase hbase2 hm hle (hf.1.trans_lt he.2)).symm

/-- Behind a number that has all its digits, there is nothing up to the next one. -/
theorem next_significant {m k : ℤ} (ht : (base : ℤ) ^ t ≤ m * base) {v : ℚ}
    (hv : Significant base t v) (hlt : scaled base m k < v) : scaled base (m + 1) k ≤ v := by
  obtain ⟨n, j, hn, rfl⟩ := hv
  rcases le_or_gt k j with hle | hgt
  · rw [scaled_of_le hbase hle] at hlt ⊢
    rw [scaled_lt_left_iff hbase] at hlt
    rw [scaled_le_left_iff hbase]
    omega
  · exfalso
    rw [scaled_of_le hbase hgt.le, scaled_lt_left_iff hbase] at hlt
    have hpow := pow_ge_base base (show (k - j).toNat ≠ 0 by omega)
    have hcast : (n.natAbs : ℤ) < (base : ℤ) ^ t := by exact_mod_cast hn
    have habs : n ≤ (n.natAbs : ℤ) := Int.le_natAbs
    have hbpos : (0 : ℤ) < base := by exact_mod_cast hbase
    have hmpos : 0 < m := by
      have hpos : (0 : ℤ) < (base : ℤ) ^ t := pow_pos hbpos t
      by_contra hneg
      nlinarith
    nlinarith

end Positive

/-! ### The rules -/

/-- The first digits of `x` are those of `m`, which has `q` digits less than there is room for. -/
structure Leads (base t : ℕ) (m : ℤ) (q : ℕ) (f : ℤ) (x : ℚ) : Prop where
  pos : 1 ≤ m
  full : (base : ℤ) ^ t ≤ m * (base : ℤ) ^ q * base
  fits : m * (base : ℤ) ^ q < (base : ℤ) ^ t
  le : scaled base m f ≤ x
  lt : x < scaled base (m + 1) f

section Rules

variable {m e f : ℤ} {q : ℕ} {x : ℚ}

theorem Leads.eq_full (hbase : 0 < base) (m f : ℤ) (q : ℕ) :
    scaled base m f = scaled base (m * (base : ℤ) ^ q) (f - q) := by
  rw [scaled_shift hbase, sub_add_cancel]

theorem Leads.significant (hbase : 0 < base) (h : Leads base t m q f x) :
    Significant base t (scaled base m f) := by
  have hm := h.pos
  have hpow : (0 : ℤ) < (base : ℤ) ^ q := pow_pos (by exact_mod_cast hbase) q
  refine ⟨m * (base : ℤ) ^ q, f - q, ?_, Leads.eq_full hbase m f q⟩
  have hfits := h.fits
  have hpos : 0 < m * (base : ℤ) ^ q := mul_pos (by omega) hpow
  zify
  rw [abs_of_pos hpos]
  exact hfits

/-- The next number with all digits has room, too. -/
theorem Leads.next (hbase : 2 ≤ base) (h : Leads base t m q f x) :
    Significant base t (scaled base (m * (base : ℤ) ^ q + 1) (f - q)) := by
  have hm := h.pos
  have hpow : (0 : ℤ) < (base : ℤ) ^ q := pow_pos (by exact_mod_cast (by omega : 0 < base)) q
  have hpos : 0 < m * (base : ℤ) ^ q := mul_pos (by omega) hpow
  have hfits := h.fits
  by_cases hlast : m * (base : ℤ) ^ q + 1 = (base : ℤ) ^ t
  · refine ⟨1, f - q + t, ?_, ?_⟩
    · have ht : 1 < base ^ t := by
        zify
        rw [← hlast]
        omega
      exact ht
    · rw [hlast, ← scaled_shift (by omega), one_mul]
  · refine ⟨_, _, ?_, rfl⟩
    zify
    rw [abs_of_pos (by omega)]
    omega

/-- What leads a number leads what lies between it and the next one in its place, too. -/
theorem Leads.between (hbase : 0 < base) {n k : ℤ} (h : Leads base t m q f (scaled base n k))
    (hk : k ≤ f) (hx : scaled base n k ≤ x ∧ x < scaled base (n + 1) k) :
    Leads base t m q f x := by
  refine ⟨h.pos, h.full, h.fits, h.le.trans hx.1, hx.2.trans_le ?_⟩
  have hlt := h.lt
  rw [scaled_of_le hbase hk] at hlt ⊢
  rw [scaled_lt_left_iff hbase] at hlt
  rw [scaled_le_left_iff hbase]
  exact hlt

/-- **Truncation**: digits that lead a number are its truncation in their own place only, and if
    there are only zeros in the room behind them. -/
theorem Leads.truncates_iff (hbase : 2 ≤ base) (h : Leads base t m q f x) :
    Truncates base t x (scaled base m e) ↔
      e = f ∧ x < scaled base (m * (base : ℤ) ^ q + 1) (f - q) := by
  have hbase0 : 0 < base := by omega
  have hm := h.pos
  have hle := h.le
  have hpos : 0 < scaled base m f := scaled_pos hbase0 (by omega)
  have hx : 0 < x := hpos.trans_le hle
  constructor
  · intro htruncates
    have hepos : 0 < scaled base m e := scaled_pos hbase0 (by omega)
    have hbelow := htruncates.le
    have hmost := htruncates.largest _ (h.significant hbase0)
      (by rw [abs_of_pos hpos, abs_of_pos hx]; exact hle)
    rw [abs_of_pos hepos, abs_of_pos hx] at hbelow
    rw [abs_of_pos hpos, abs_of_pos hepos] at hmost
    obtain rfl := exponent_unique hbase0 hbase hm hmost (hbelow.trans_lt h.lt)
    refine ⟨rfl, ?_⟩
    by_contra hge
    have hnext_lt : scaled base m e < scaled base (m * (base : ℤ) ^ q + 1) (e - q) := by
      rw [Leads.eq_full hbase0 m e q, scaled_lt_left_iff hbase0]
      omega
    have hnext_pos := hpos.trans hnext_lt
    have hlarger := htruncates.largest _ (h.next hbase)
      (by rw [abs_of_pos hnext_pos, abs_of_pos hx]; linarith)
    rw [abs_of_pos hnext_pos, abs_of_pos hpos] at hlarger
    linarith
  · rintro ⟨rfl, hlt⟩
    refine ⟨h.significant hbase0, (mul_pos hpos hx).le, ?_, ?_⟩
    · rw [abs_of_pos hpos, abs_of_pos hx]
      exact hle
    · intro w hw hwx
      rw [abs_of_pos hpos]
      rw [abs_of_pos hx] at hwx
      by_contra hgt
      rw [Leads.eq_full hbase0 m e q] at hgt
      have hnext := next_significant hbase0 h.full hw.abs (not_le.mp hgt)
      linarith

theorem scaled_succ (base : ℕ) (n k : ℤ) :
    scaled base (n + 1) k = scaled base n k + (base : ℚ) ^ k := by
  rw [scaled_add]
  simp [scaled]

/-- With the same digits no other exponent is as near. -/
theorem Leads.exponent_eq (hbase : 3 ≤ base) (h : Leads base t m q f x)
    (hnear : |scaled base m e - x| ≤ x - scaled base m f) : e = f := by
  have hbase0 : 0 < base := by omega
  have hm := h.pos
  have hle := h.le
  have hlt := h.lt
  rcases lt_trichotomy e f with hef | hef | hef
  · have hsmaller : scaled base m e < scaled base m f := by
      rw [scaled_of_le hbase0 hef.le, scaled_lt_left_iff hbase0]
      have hpow := pow_ge_base base (show (f - e).toNat ≠ 0 by omega)
      have hb : (3 : ℤ) ≤ base := by exact_mod_cast hbase
      nlinarith
    rw [abs_sub_comm, abs_of_nonneg (by linarith)] at hnear
    linarith
  · exact hef
  · -- the digits one place up are farther away on the other side
    have hlarger : scaled base (m + 2) f ≤ scaled base m e := by
      rw [scaled_of_le hbase0 hef.le, scaled_le_left_iff hbase0]
      have hpow := pow_ge_base base (show (e - f).toNat ≠ 0 by omega)
      have hb : (3 : ℤ) ≤ base := by exact_mod_cast hbase
      nlinarith
    have htwo : scaled base (m + 2) f = scaled base (m + 1) f + (base : ℚ) ^ f := by
      rw [← scaled_succ]
      congr 1
      ring
    rw [scaled_succ] at hlt htwo
    rw [abs_of_nonneg (by linarith)] at hnear
    linarith

/-- **Rounding**: they are the nearest number in their own place only, and if less than a half of the
    last digit follows. -/
theorem Leads.rounds_iff (hbase : 3 ≤ base) (h : Leads base t m q f x) :
    Rounds base t x (scaled base m e) ↔
      e = f ∧ 2 * (x - scaled base m f) < (base : ℚ) ^ (f - q) := by
  have hbase0 : 0 < base := by omega
  have hm := h.pos
  have hle := h.le
  have hpos : 0 < scaled base m f := scaled_pos hbase0 (by omega)
  have hfull := Leads.eq_full hbase0 m f q
  have hnext : scaled base (m * (base : ℤ) ^ q + 1) (f - q) =
      scaled base m f + (base : ℚ) ^ (f - q) := by rw [scaled_succ, ← hfull]
  have hgap : (0 : ℚ) < (base : ℚ) ^ (f - q) := zpow_pos (by exact_mod_cast hbase0) _
  have hdist : |scaled base m f - x| = x - scaled base m f := by
    rw [abs_sub_comm, abs_of_nonneg (by linarith)]
  constructor
  · intro hrounds
    have hnear := hrounds.nearest _ (h.significant hbase0)
    rw [hdist] at hnear
    have he : e = f := h.exponent_eq hbase hnear
    refine ⟨he, ?_⟩
    rw [he] at hrounds
    by_contra hhalf
    have hclose : |scaled base (m * (base : ℤ) ^ q + 1) (f - q) - x| ≤ |scaled base m f - x| := by
      rw [hdist, hnext, abs_le]
      constructor <;> linarith
    have heq := le_antisymm hclose (hrounds.nearest _ (h.next (by omega)))
    have haway := hrounds.away _ (h.next (by omega)) heq
    rw [hnext, abs_of_pos hpos, abs_of_pos (by linarith)] at haway
    linarith
  · rintro ⟨rfl, hhalf⟩
    have hside : ∀ w, Significant base t w → w ≤ scaled base m e ∨
        scaled base m e + (base : ℚ) ^ (e - q) ≤ w := by
      intro w hw
      rcases le_or_gt w (scaled base m e) with hwle | hwgt
      · exact Or.inl hwle
      · right
        rw [← hnext]
        exact next_significant hbase0 h.full hw (hfull ▸ hwgt)
    refine ⟨h.significant hbase0, ?_, ?_⟩
    · intro w hw
      rw [hdist]
      rcases hside w hw with hwle | hwge
      · rw [abs_sub_comm, abs_of_nonneg (by linarith)]
        linarith
      · rw [abs_of_nonneg (by linarith)]
        linarith
    · intro w hw heq
      rw [hdist] at heq
      rcases hside w hw with hwle | hwge
      · rw [abs_sub_comm, abs_of_nonneg (by linarith)] at heq
        have hweq : w = scaled base m e := by linarith
        rw [hweq]
      · rw [abs_of_nonneg (by linarith)] at heq
        linarith

end Rules

end FreeVMS.Lib.Rounding
