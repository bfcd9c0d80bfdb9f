import FreeVMS.Rtl.Multiword

/-!
# Extended division

`libediv.c`: a quadword divided by a longword.  A `long` has 64 bits on the machine that the library
is built for, so the quotient is not narrowed, and overflow is told by its sign only.
-/

namespace FreeVMS.Rtl

/-- `SS$_INTDIV` -/
def intDiv : Nat := 0x0484

/-- What `lib$ediv` returns and stores. -/
structure Division where
  status : Nat
  quotient : BitVec 64
  remainder : BitVec 64
deriving DecidableEq, Repr

/-- Bits 31:0 of the dividend, as `0x00000000FFFFFFFF & *dividend`. -/
def overflowed (dividend : BitVec 64) : Division := ⟨intOvf, 0x00000000FFFFFFFF &&& dividend, 0⟩

/-- `lib$ediv`; the quotient of the smallest number by -1 is not defined. -/
def libEdiv (divisor dividend : BitVec 64) : Option Division :=
  if divisor = 0 then some ⟨intDiv, dividend, 0⟩
  else if dividend = BitVec.intMin 64 ∧ divisor = -1 then none
  else
    let quotient := dividend.sdiv divisor
    let remainder := dividend.srem divisor
    if 0 < dividend.toInt ∧ quotient.toInt < 0 then some (overflowed dividend)
    else if dividend.toInt < 0 ∧ 0 < quotient.toInt then some (overflowed dividend)
    else some ⟨normal, quotient, remainder⟩

/-! ### What is asked for -/

/-- The true quotient is a longword. -/
def QuotientFits (divisor dividend : Int) : Prop :=
  -2 ^ 31 ≤ dividend.tdiv divisor ∧ dividend.tdiv divisor < 2 ^ 31

instance (divisor dividend : Int) : Decidable (QuotientFits divisor dividend) :=
  inferInstanceAs (Decidable (_ ∧ _))

/-- Quotient and remainder of a dividend. -/
structure Divides (divisor dividend quotient remainder : Int) : Prop where
  eq : dividend = quotient * divisor + remainder
  lt : |remainder| < |divisor|
  sign : remainder = 0 ∨ remainder.sign = dividend.sign

/-- What `lib$ediv` should do for a divisor that is a longword. -/
structure EdivRight (divisor : BitVec 32) (dividend : BitVec 64) (d : Division) : Prop where
  fits : QuotientFits divisor.toInt dividend.toInt →
    d.status = normal ∧ Divides divisor.toInt dividend.toInt d.quotient.toInt d.remainder.toInt
  overflows : ¬ QuotientFits divisor.toInt dividend.toInt →
    d.status = intOvf ∧ d.quotient.setWidth 32 = dividend.setWidth 32 ∧ d.remainder = 0

/-! ### What it does -/

section

variable {divisor : BitVec 32} {dividend : BitVec 64}

theorem divides_tdiv (n : Int) {m : Int} (hm : m ≠ 0) : Divides m n (n.tdiv m) (n.tmod m) := by
  refine ⟨?_, ?_, ?_⟩
  · rw [mul_comm]
    exact (Int.mul_tdiv_add_tmod n m).symm
  · have hpos : 0 < |m| := abs_pos.mpr hm
    have habs : n.tmod |m| = n.tmod m := by
      rcases abs_choice m with h | h
      · rw [h]
      · rw [h, Int.tmod_neg]
    rw [← habs]
    exact abs_lt.mpr ⟨Int.lt_tmod_of_pos n hpos, Int.tmod_lt_of_pos n hpos⟩
  · by_cases hdvd : m ∣ n
    · exact .inl (Int.tmod_eq_zero_of_dvd hdvd)
    · right
      rw [Int.sign_tmod, if_neg hdvd]

theorem tdiv_eq_zero_iff (n : Int) {m : Int} (hm : m ≠ 0) : n.tdiv m = 0 ↔ |n| < |m| := by
  rw [← Int.natAbs_eq_zero, Int.natAbs_tdiv, Int.abs_eq_natAbs, Int.abs_eq_natAbs]
  show n.natAbs / m.natAbs = 0 ↔ _
  rw [Nat.div_eq_zero_iff]
  omega

/-- Both signs are as they should be when the divisor is positive. -/
theorem tdiv_of_pos {n m : Int} (hm : 0 < m) :
    ¬ (0 < n ∧ n.tdiv m < 0) ∧ ¬ (n < 0 ∧ 0 < n.tdiv m) := by
  constructor
  · rintro ⟨hn, hq⟩
    have hnonneg := Int.tdiv_nonneg hn.le hm.le
    omega
  · rintro ⟨hn, hq⟩
    have hnonneg := Int.tdiv_nonneg (show 0 ≤ -n by omega) hm.le
    rw [Int.neg_tdiv] at hnonneg
    omega

/-- And they never are when it is negative. -/
theorem tdiv_of_neg {n m : Int} (hm : m < 0) (hq : n.tdiv m ≠ 0) :
    (0 < n ∧ n.tdiv m < 0) ∨ (n < 0 ∧ 0 < n.tdiv m) := by
  have hneg : n.tdiv m = -(n.tdiv (-m)) := by
    rw [Int.tdiv_neg, neg_neg]
  obtain ⟨hpos, hneg'⟩ := tdiv_of_pos (n := n) (show 0 < -m by omega)
  rcases lt_trichotomy n 0 with hn | rfl | hn
  · exact .inr ⟨hn, by omega⟩
  · exact absurd (Int.zero_tdiv m) hq
  · exact .inl ⟨hn, by omega⟩

/-- The call with a longword that is not zero. -/
theorem libEdiv_eq (hdivisor : divisor ≠ 0) :
    libEdiv (divisor.signExtend 64) dividend =
      if dividend.toInt = -2 ^ 63 ∧ divisor.toInt = -1 then none
      else if divisor.toInt < 0 ∧ dividend.toInt.tdiv divisor.toInt ≠ 0 then
        some (overflowed dividend)
      else some ⟨normal, dividend.sdiv (divisor.signExtend 64), dividend.srem (divisor.signExtend 64)⟩ := by
  have hint : (divisor.signExtend 64).toInt = divisor.toInt :=
    BitVec.toInt_signExtend_of_le (by decide)
  have hne : divisor.toInt ≠ 0 := fun h => hdivisor (BitVec.eq_of_toInt_eq h)
  have hzero : divisor.signExtend 64 ≠ 0 := by
    intro h
    rw [h] at hint
    exact hne hint.symm
  have hmin : (dividend = BitVec.intMin 64 ∧ divisor.signExtend 64 = -1) ↔
      (dividend.toInt = -2 ^ 63 ∧ divisor.toInt = -1) := by
    rw [← BitVec.toInt_inj, ← BitVec.toInt_inj, hint]
    exact Iff.rfl
  rw [libEdiv, if_neg hzero]
  by_cases hundefined : dividend.toInt = -2 ^ 63 ∧ divisor.toInt = -1
  · rw [if_pos (hmin.mpr hundefined), if_pos hundefined]
  · have hnot := fun h => hundefined (hmin.mp h)
    rw [if_neg hnot, if_neg hundefined]
    have hquotient : (dividend.sdiv (divisor.signExtend 64)).toInt =
        dividend.toInt.tdiv divisor.toInt := by
      rw [BitVec.toInt_sdiv_of_ne_or_ne _ _ (not_and_or.mp hnot), hint]
    simp only [hquotient]
    by_cases hoverflow : divisor.toInt < 0 ∧ dividend.toInt.tdiv divisor.toInt ≠ 0
    · rw [if_pos hoverflow]
      rcases tdiv_of_neg hoverflow.1 hoverflow.2 with h | h
      · rw [if_pos h]
      · rw [if_neg (by omega), if_pos h]
    · rw [if_neg hoverflow]
      rcases lt_or_gt_of_ne hne with hneg | hpos
      · have hq : dividend.toInt.tdiv divisor.toInt = 0 := by
          by_contra hq
          exact hoverflow ⟨hneg, hq⟩
        rw [if_neg (by omega), if_neg (by omega)]
      · obtain ⟨hup, hdown⟩ := tdiv_of_pos (n := dividend.toInt) hpos
        rw [if_neg hup, if_neg hdown]

/-- When `lib$ediv` does what it should: for a positive divisor if the quotient is a longword, for a
    negative one if the quotient is zero or no longword, but not where it is not defined. -/
def EdivWhen (divisor dividend : Int) : Prop :=
  (0 < divisor ∧ QuotientFits divisor dividend) ∨
    (divisor < 0 ∧ (|dividend| < |divisor| ∨
      (¬ QuotientFits divisor dividend ∧ ¬ (dividend = -2 ^ 63 ∧ divisor = -1))))

theorem normal_ne_intOvf : normal ≠ intOvf := by decide

/-- **`lib$ediv`.** -/
theorem ediv_right_iff (hdivisor : divisor ≠ 0) :
    (∃ d, libEdiv (divisor.signExtend 64) dividend = some d ∧ EdivRight divisor dividend d) ↔
      EdivWhen divisor.toInt dividend.toInt := by
  have hne : divisor.toInt ≠ 0 := fun h => hdivisor (BitVec.eq_of_toInt_eq h)
  have hint : (divisor.signExtend 64).toInt = divisor.toInt :=
    BitVec.toInt_signExtend_of_le (by decide)
  have hsmall := tdiv_eq_zero_iff dividend.toInt hne
  rw [libEdiv_eq hdivisor]
  by_cases hundefined : dividend.toInt = -2 ^ 63 ∧ divisor.toInt = -1
  · rw [if_pos hundefined]
    refine iff_of_false (fun ⟨_, h, _⟩ => by cases h) ?_
    obtain ⟨hn, hm⟩ := hundefined
    rintro (⟨hpos, -⟩ | ⟨-, hlt | ⟨-, hnot⟩⟩)
    · omega
    · rw [hn, hm] at hlt
      exact absurd hlt (by decide)
    · exact hnot ⟨hn, hm⟩
  rw [if_neg hundefined]
  by_cases hoverflow : divisor.toInt < 0 ∧ dividend.toInt.tdiv divisor.toInt ≠ 0
  · rw [if_pos hoverflow]
    constructor
    · rintro ⟨d, hd, hright⟩
      obtain rfl := Option.some_inj.mp hd
      refine .inr ⟨hoverflow.1, .inr ⟨fun hfits => ?_, hundefined⟩⟩
      exact absurd (hright.fits hfits).1.symm normal_ne_intOvf
    · rintro (⟨hpos, -⟩ | ⟨-, hlt | ⟨hfits, -⟩⟩)
      · omega
      · exact absurd (hsmall.mpr hlt) hoverflow.2
      · refine ⟨_, rfl, fun h => absurd h hfits, fun _ => ⟨rfl, ?_, rfl⟩⟩
        show (0x00000000FFFFFFFF &&& dividend).setWidth 32 = dividend.setWidth 32
        rw [BitVec.setWidth_and]
        exact BitVec.allOnes_and
  · rw [if_neg hoverflow]
    constructor
    · rintro ⟨d, hd, hright⟩
      obtain rfl := Option.some_inj.mp hd
      have hfits : QuotientFits divisor.toInt dividend.toInt := by
        by_contra hfits
        exact normal_ne_intOvf (hright.overflows hfits).1
      rcases lt_or_gt_of_ne hne with hneg | hpos
      · refine .inr ⟨hneg, .inl (hsmall.mp ?_)⟩
        by_contra hq
        exact hoverflow ⟨hneg, hq⟩
      · exact .inl ⟨hpos, hfits⟩
    · intro hwhen
      have hfits : QuotientFits divisor.toInt dividend.toInt := by
        rcases hwhen with ⟨-, hfits⟩ | ⟨hneg, hlt | ⟨hfits, -⟩⟩
        · exact hfits
        · rw [QuotientFits, hsmall.mpr hlt]
          decide
        · -- a negative divisor whose quotient is zero: it fits
          have hq : dividend.toInt.tdiv divisor.toInt = 0 := by
            by_contra hq
            exact hoverflow ⟨hneg, hq⟩
          rw [QuotientFits, hq]
          decide
      refine ⟨_, rfl, fun _ => ⟨rfl, ?_⟩, fun h => absurd hfits h⟩
      have hnot : dividend ≠ BitVec.intMin 64 ∨ divisor.signExtend 64 ≠ -1 := by
        rw [← not_and_or, ← BitVec.toInt_inj, ← BitVec.toInt_inj, hint]
        exact hundefined
      rw [BitVec.toInt_sdiv_of_ne_or_ne _ _ hnot, BitVec.toInt_srem, hint]
      exact divides_tdiv dividend.toInt hne

end

/-- 5 divided by 2, as in the tests. -/
theorem ediv_right_five :
    (∃ d, libEdiv ((2 : BitVec 32).signExtend 64) 5 = some d ∧ EdivRight 2 5 d) ↔
      EdivWhen (2 : BitVec 32).toInt (5 : BitVec 64).toInt :=
  ediv_right_iff (by decide)

/-- 1 divided by -1: an overflow is reported. -/
theorem ediv_one_by_minus_one : libEdiv ((-1 : BitVec 32).signExtend 64) 1 = some ⟨intOvf, 1, 0⟩ ∧
    ¬ ∀ (divisor : BitVec 32) (dividend : BitVec 64), divisor ≠ 0 →
      ∃ d, libEdiv (divisor.signExtend 64) dividend = some d ∧ EdivRight divisor dividend d := by
  refine ⟨by decide, fun h => ?_⟩
  obtain ⟨d, hd, hright⟩ := h (-1) 1 (by decide)
  have hcall : libEdiv ((-1 : BitVec 32).signExtend 64) 1 = some ⟨intOvf, 1, 0⟩ := by decide
  obtain rfl := Option.some_inj.mp (hcall.symm.trans hd)
  exact absurd (hright.fits (by decide)).1 (by decide)

end FreeVMS.Rtl
