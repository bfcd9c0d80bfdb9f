import FreeVMS.Rtl.DecimalRound
import FreeVMS.Rtl.DivisionEnd

/-!
# What the division gives

The digits that the loops leave are the first digits of the quotient. They are the result, in the
right place, only if the whole dividend was brought down and if the exponent was not positive where
digits are dropped again.
-/

namespace FreeVMS.Rtl.Num

open Lib.Digits Lib.Scaled Lib.Rounding Lib.LongDivision

/-! ### The exact quotient -/

/-- The place of the last of `k` digits of the quotient. -/
def placeOf (a b : Decimal) (k : Nat) : Int :=
  a.exp.toInt - b.exp.toInt + a.digits.length - k

section Exact

variable {a b : Decimal}

/-- What is brought down is the dividend up to its place. -/
theorem brought_bounds {s : List Byte} (hs : Digits s) (k : Nat) :
    brought s k * 10 ^ (s.length - k) ≤ number s * 10 ^ (k - s.length) ∧
      number s * 10 ^ (k - s.length) < (brought s k + 1) * 10 ^ (s.length - k) := by
  unfold brought
  rcases Nat.le_total k s.length with hle | hle
  · have hsplit := number_take_drop s k
    have hlt := number_drop_lt hs k
    rw [Nat.sub_eq_zero_of_le hle, pow_zero, Nat.mul_one, Nat.mul_one, Nat.add_mul, Nat.one_mul]
    omega
  · rw [List.take_of_length_le hle, Nat.sub_eq_zero_of_le hle, pow_zero, Nat.mul_one, Nat.mul_one]
    exact ⟨le_refl _, Nat.lt_succ_self _⟩

/-- What times the divisor is compared with the dividend, both in the lower one of the two places. -/
theorem times_divisor (q k : Nat) (hasign : a.sign = 0) (hbsign : b.sign = 0) :
    scaled 10 q (placeOf a b k) * b.value =
        scaled 10 (q * number b.digits * 10 ^ (a.digits.length - k) : Nat)
          (a.exp.toInt - (k - a.digits.length : Nat)) ∧
      a.value = scaled 10 (number a.digits * 10 ^ (k - a.digits.length) : Nat)
        (a.exp.toInt - (k - a.digits.length : Nat)) := by
  rw [Decimal.value, Decimal.value, hasign, hbsign, signed_zero_left, signed_zero_left,
    scaled_mul (by decide)]
  push_cast
  constructor
  · have hplace : placeOf a b k + b.exp.toInt =
        a.exp.toInt - (k - a.digits.length : Nat) + (a.digits.length - k : Nat) := by
      unfold placeOf
      omega
    rw [hplace, ← scaled_shift (by decide)]
    rfl
  · rw [← sub_add_cancel a.exp.toInt ((k - a.digits.length : Nat) : Int), ← scaled_shift (by decide),
      sub_add_cancel]
    rfl

/-- The digits of the quotient are the first digits of what the numbers divide to. -/
theorem quotient_bounds (ha : Digits a.digits) (hb : 0 < number b.digits) (hasign : a.sign = 0)
    (hbsign : b.sign = 0) (k : Nat) :
    scaled 10 (quotient a b k) (placeOf a b k) ≤ a.value / b.value ∧
      a.value / b.value < scaled 10 ((quotient a b k + 1 : Nat) : Int) (placeOf a b k) := by
  have hdivisor : 0 < b.value := by
    rw [Decimal.value, hbsign, signed_zero_left]
    exact scaled_pos (by decide) (by exact_mod_cast hb)
  obtain ⟨hlow, hhigh⟩ := brought_bounds ha k
  obtain ⟨hquotient, hdividend⟩ := times_divisor (quotient a b k) k hasign hbsign
  obtain ⟨hnext, _⟩ := times_divisor (quotient a b k + 1) k hasign hbsign
  have hle : quotient a b k * number b.digits ≤ brought a.digits k := Nat.div_mul_le_self _ _
  have hlt : brought a.digits k + 1 ≤ (quotient a b k + 1) * number b.digits :=
    Nat.lt_mul_of_div_lt (Nat.lt_succ_self _) hb
  constructor
  · rw [le_div_iff₀ hdivisor, hquotient, hdividend, scaled_le_left_iff (by decide), Int.ofNat_le]
    exact (Nat.mul_le_mul_right _ hle).trans hlow
  · rw [div_lt_iff₀ hdivisor, hnext, hdividend, scaled_lt_left_iff (by decide), Int.ofNat_lt]
    exact hhigh.trans_le (Nat.mul_le_mul_right _ hlt)

end Exact

/-! ### Behind the loops -/

/-- The loops are left behind `k` digits, and not before. -/
structure LeavesAt (a b : Decimal) (first : Int) (k : Nat) : Prop where
  pos : 1 ≤ k
  le : k ≤ 65535
  stops : Stops a b first k
  before : ∀ i, 0 < i → i < k → ¬ Enough a b first i ∧ ¬ Spent a b i

/-- There is one such place at most. -/
theorem LeavesAt.unique {a b : Decimal} {first : Int} {j k : Nat} (hj : LeavesAt a b first j)
    (hk : LeavesAt a b first k) : j = k := by
  have hnot : ∀ {i l : Nat}, LeavesAt a b first i → LeavesAt a b first l → ¬ i < l := by
    intro i l hi hl hlt
    obtain ⟨henough, hspent⟩ := hl.before i hi.pos hlt
    rcases hi.stops with h | h
    · exact henough h
    · exact hspent h.1
  have hjk := hnot hj hk
  have hkj := hnot hk hj
  omega

/-- How many digits a number has. -/
def places (n : Nat) : Nat := (Nat.digits 10 n).length

/-- Without leading zeros, they are those of the string. -/
theorem places_number {s : List Byte} (hs : Plain s) (hhead : s.head? ≠ some zero) :
    places (number s) = s.length := by
  have hlow := pow_le_number hs hhead
  have hhigh := number_lt hs.digits
  have hone := List.length_pos_iff.mpr hs.nonempty
  have hle : places (number s) ≤ s.length := (Nat.digits_length_le_iff (by decide) _).mpr hhigh
  have hge : ¬ places (number s) ≤ s.length - 1 := by
    unfold places
    rw [Nat.digits_length_le_iff (by decide)]
    omega
  omega

theorem number_mod {s : List Byte} (hs : Digits s) (t : Nat) :
    number s % 10 ^ (s.length - t) = number (s.drop t) := by
  rw [number_take_drop s t, Nat.mul_add_mod_self_right, Nat.mod_eq_of_lt (number_drop_lt hs t)]

/-- The digit that decides about rounding tells whether the dropped digits are less than a half. -/
theorem half_iff {s : List Byte} (hs : Digits s) {t : Nat} (h : t < s.length) :
    2 * (number s % 10 ^ (s.length - t)) < 10 ^ (s.length - t) ↔ digitOf (s.getD t 0) < 5 := by
  have hsplit : number (s.drop t) =
      digitOf (s.getD t 0) * 10 ^ (s.length - t - 1) + number (s.drop (t + 1)) := by
    rw [List.drop_eq_getElem_cons h, number_cons, List.getD_eq_getElem _ _ h, List.length_drop,
      ← Nat.sub_sub]
  have hrest := number_drop_lt hs (t + 1)
  have hpow : 10 ^ (s.length - t) = 10 ^ (s.length - t - 1) * 10 := by
    rw [← pow_succ]
    congr 1
    omega
  rw [number_mod hs, hsplit, hpow]
  rw [← Nat.sub_sub] at hrest
  constructor
  · intro hlt
    by_contra hge
    have hmul : 5 * 10 ^ (s.length - t - 1) ≤ digitOf (s.getD t 0) * 10 ^ (s.length - t - 1) :=
      Nat.mul_le_mul_right _ (by omega)
    omega
  · intro hlt
    have hmul : (digitOf (s.getD t 0) + 1) * 10 ^ (s.length - t - 1) ≤
        5 * 10 ^ (s.length - t - 1) := Nat.mul_le_mul_right _ hlt
    rw [Nat.add_mul, Nat.one_mul] at hmul
    omega

section End

variable {a b : Decimal} {k t rti : Nat} {tdigits : BitVec 64} {s : Division}

theorem Plain.text {digits : List Byte} (h : Plain digits) (exp : BitVec 64) :
    Decimal.Text ⟨0, exp, digits⟩ := ⟨Or.inl rfl, h.digits, h.length⟩

/-- The digits of the quotient without their leading zeros. -/
theorem Produced.trimmed (h : Produced a b k s) (hk : 1 ≤ k ∧ k ≤ 65535) (hq : quotient a b k ≠ 0) :
    Plain (lzerotrim s.result) ∧ (lzerotrim s.result).head? ≠ some zero ∧
      number (lzerotrim s.result) = quotient a b k ∧
      (lzerotrim s.result).length = places (quotient a b k) := by
  have hplain : Plain s.result := by
    refine ⟨?_, h.digits, by rw [h.length]; exact hk.2⟩
    rw [← List.length_pos_iff, h.length]
    exact hk.1
  obtain ⟨htrim, htrimmed, hnumber, _⟩ := trim_plain hplain
  rw [h.result] at hnumber
  have hhead : (lzerotrim s.result).head? ≠ some zero := by
    rcases htrimmed with hzero | hhead
    · rw [hzero] at hnumber
      exact absurd hnumber.symm hq
    · exact hhead
  refine ⟨htrim, hhead, hnumber, ?_⟩
  rw [← hnumber, places_number htrim hhead]

theorem divideEnd_of_round {d : Decimal} (h : Produced a b k s)
    (hround : ∀ digits, strRoundAt id tdigits (if rti = 0 then 1 else 0)
      ⟨0, s.exp, lzerotrim s.result⟩ ⟨0, s.exp, digits⟩ = .ok (strNormal, d)) :
    divideEnd 0 tdigits rti s = .ok (strNormal, d) := by
  rw [divideEnd, hround, h.status]
  rfl

/-- No more digits than wanted. -/
theorem divideEnd_short (h : Produced a b k s) (hk : 1 ≤ k ∧ k ≤ 65535) (hq : quotient a b k ≠ 0)
    (ht : tdigits.toInt = t) (hplaces : places (quotient a b k) ≤ t) :
    divideEnd 0 tdigits rti s = .ok (strNormal, ⟨0, s.exp, lzerotrim s.result⟩) := by
  obtain ⟨hplain, _, _, hlength⟩ := h.trimmed hk hq
  refine divideEnd_of_round h fun digits => ?_
  exact strRoundAt_short (hplain.text s.exp) (Or.inl rfl) (Or.symm (ite_eq_or_eq _ _ _)) ht
    (hlength.trans_le hplaces)

/-- More digits than wanted, and the rest is dropped. -/
theorem divideEnd_long (h : Produced a b k s) (hk : 1 ≤ k ∧ k ≤ 65535) (hq : quotient a b k ≠ 0)
    (hrti : rti = 0 ∨ rti = 1) (ht : tdigits.toInt = t) (hplaces : t < places (quotient a b k))
    (hhalf : rti = 1 → digitOf ((lzerotrim s.result).getD t 0) < 5) :
    divideEnd 0 tdigits rti s = .ok (strNormal,
      ⟨0, correct s.exp (Decimal.len ⟨0, s.exp, lzerotrim s.result⟩) tdigits,
        (lzerotrim s.result).take t⟩) := by
  obtain ⟨hplain, _, _, hlength⟩ := h.trimmed hk hq
  refine divideEnd_of_round h fun digits => ?_
  refine strRoundAt_long (hplain.text s.exp) (Or.inl rfl) (Or.symm (ite_eq_or_eq _ _ _)) ht
    (hplaces.trans_eq hlength.symm) ?_
  rcases hrti with rfl | rfl
  · exact Or.inl rfl
  · exact Or.inr (hhalf rfl)

/-- More digits than wanted, and the last of them is to be raised: there are none then. -/
theorem divideEnd_up (h : Produced a b k s) (hk : 1 ≤ k ∧ k ≤ 65535) (hq : quotient a b k ≠ 0)
    (ht : tdigits.toInt = t) (hpos : 1 ≤ t) (hplaces : t < places (quotient a b k))
    (hhalf : 5 ≤ digitOf ((lzerotrim s.result).getD t 0)) :
    divideEnd 0 tdigits 1 s = .ok (strNormal,
      ⟨0, correct s.exp (Decimal.len ⟨0, s.exp, lzerotrim s.result⟩) tdigits, []⟩) := by
  obtain ⟨hplain, _, _, hlength⟩ := h.trimmed hk hq
  refine divideEnd_of_round h fun digits => ?_
  exact strRoundAt_up (hplain.text s.exp) (Or.inl rfl) ht hpos (hplaces.trans_eq hlength.symm) hhalf

/-! ### The exponent -/

/-- The exponent that the loops leave, up to a wrap. -/
theorem Produced.exp_wrap (h : Produced a b k s) :
    ∃ j : Int, s.exp.toInt =
      a.exp.toInt - b.exp.toInt - (k - a.digits.length : Nat) + j * 2 ^ 64 := by
  have hint : s.exp = BitVec.ofInt 64 (a.exp.toInt - b.exp.toInt - (k - a.digits.length : Nat)) := by
    rw [h.exp, Int.sub_eq_add_neg, Int.sub_eq_add_neg, BitVec.ofInt_add, BitVec.ofInt_add,
      BitVec.ofInt_neg, BitVec.ofInt_neg, BitVec.ofInt_toInt, BitVec.ofInt_toInt,
      BitVec.sub_eq_add_neg, BitVec.sub_eq_add_neg]
    rfl
  refine ⟨-Int.bdiv (a.exp.toInt - b.exp.toInt - (k - a.digits.length : Nat)) (2 ^ 64), ?_⟩
  rw [hint, BitVec.toInt_ofInt, Int.bmod_eq_self_sub_mul_bdiv]
  push_cast
  ring

/-- Without a further change it is the right one if that is one of a `long`. -/
theorem Produced.exp_iff (h : Produced a b k s) (hlen : a.digits.length ≤ k) :
    s.exp.toInt = placeOf a b k ↔ -2 ^ 63 ≤ placeOf a b k ∧ placeOf a b k < 2 ^ 63 := by
  obtain ⟨j, hj⟩ := h.exp_wrap
  have hlow := BitVec.le_toInt s.exp
  have hhigh := BitVec.toInt_lt (x := s.exp)
  unfold placeOf
  omega

/-- The number of dropped digits is added to what is not positive and taken from what is. -/
theorem correct_toInt {exp tdigits : BitVec 64} {length : BitVec 16} (ht : tdigits.toInt = t)
    (hlt : t < length.toNat) : (correct exp length tdigits).toInt =
      if exp.toInt ≤ 0 then exp.toInt + (length.toNat - t : Nat)
      else exp.toInt - (length.toNat - t : Nat) := by
  have hlow := BitVec.le_toInt exp
  have hhigh := BitVec.toInt_lt (x := exp)
  have hlength := length.isLt
  have hdropped : (length.setWidth 64 - tdigits).toInt = (length.toNat - t : Nat) := by
    have hwidth : (length.setWidth 64).toInt = length.toNat := by
      rw [BitVec.toInt_eq_toNat_cond, BitVec.toNat_setWidth]
      omega
    rw [BitVec.toInt_sub, hwidth, ht]
    have hcast : ((length.toNat - t : Nat) : Int) = length.toNat - t := by omega
    rw [hcast]
    apply Int.bmod_eq_of_le <;> omega
  unfold correct
  split
  · rw [BitVec.toInt_add, hdropped]
    apply Int.bmod_eq_of_le <;> omega
  · rw [BitVec.toInt_sub, hdropped]
    apply Int.bmod_eq_of_le <;> omega

/-- Where digits are dropped, the whole dividend has to be brought down, too, and the right exponent
    may not be positive. -/
theorem Produced.correct_iff (h : Produced a b k s) {length : BitVec 16} (ha : a.digits.length ≤ 65535)
    (ht : tdigits.toInt = t) (hlt : t < length.toNat) :
    (correct s.exp length tdigits).toInt = placeOf a b k + (length.toNat - t : Nat) ↔
      a.digits.length ≤ k ∧ -2 ^ 63 ≤ placeOf a b k ∧ placeOf a b k ≤ 0 := by
  obtain ⟨j, hj⟩ := h.exp_wrap
  have hlow := BitVec.le_toInt s.exp
  have hhigh := BitVec.toInt_lt (x := s.exp)
  have hlength := length.isLt
  rw [correct_toInt ht hlt]
  unfold placeOf
  split
  · omega
  · omega

end End

/-! ### The result -/

/-- What is asked of a result: truncation for `rti` 0, rounding for `rti` 1. -/
def Quotes (rti t : Nat) (x : ℚ) (d : Decimal) : Prop :=
  Digits d.digits ∧
    if rti = 1 then Rounds 10 t x d.value
    else Significant 10 t d.value ∧ d.value ≤ x ∧ x < d.value + (10 : ℚ) ^ d.exp.toInt

section Value

variable {t rti : Nat}

theorem scaled_succ (m : Nat) (k : Int) :
    scaled 10 (m + 1) k = scaled 10 m k + (10 : ℚ) ^ k := by
  rw [scaled_add]
  simp [scaled]

/-- The digits of the quotient, none of them dropped. -/
theorem quotes_exact_iff {q : Nat} {p : Int} {digits : List Byte} (hdigits : Digits digits)
    (hnumber : number digits = q) (hq : q ≠ 0) (hplaces : places q ≤ t) (exp : BitVec 64) :
    Quotes rti t (scaled 10 q p) ⟨0, exp, digits⟩ ↔ exp.toInt = p := by
  have hone : (1 : Int) ≤ q := by omega
  have hlt : q < 10 ^ t := (Nat.digits_length_le_iff (by decide) q).mp hplaces
  have hroom : ∀ k, Significant 10 t (scaled 10 q k) := fun k => ⟨q, k, hlt, rfl⟩
  have hself : ∀ k, scaled 10 q k ≤ scaled 10 q k ∧ scaled 10 q k < scaled 10 (q + 1) k := by
    intro k
    rw [scaled_lt_left_iff (by decide)]
    exact ⟨le_refl _, Int.lt_succ _⟩
  have hvalue : Decimal.value ⟨0, exp, digits⟩ = scaled 10 q exp.toInt := by
    rw [Decimal.value, signed_zero_left, hnumber]
  rw [Quotes, and_iff_right hdigits, hvalue]
  by_cases hrti : rti = 1
  · rw [if_pos hrti, rounds_exact_iff (hroom p), scaled_right_inj (by decide) (by omega)]
  · rw [if_neg hrti, and_iff_right (hroom _), ← scaled_succ]
    constructor
    · intro h
      exact place_unique (by decide) (by decide) hone h (hself p)
    · rintro rfl
      exact hself _

/-- The first digits of the quotient, with less than a half behind them if it is to be rounded. -/
theorem quotes_leads_iff {x : ℚ} {m : Nat} {f : Int} {digits : List Byte} (hdigits : Digits digits)
    (hnumber : number digits = m) (h : Leads 10 t m 0 f x)
    (hhalf : rti = 1 → 2 * (x - scaled 10 m f) < (10 : ℚ) ^ f) (exp : BitVec 64) :
    Quotes rti t x ⟨0, exp, digits⟩ ↔ exp.toInt = f := by
  have hvalue : Decimal.value ⟨0, exp, digits⟩ = scaled 10 m exp.toInt := by
    rw [Decimal.value, signed_zero_left, hnumber]
  have hroom : Significant 10 t (scaled 10 m exp.toInt) := by
    refine ⟨m, exp.toInt, ?_, rfl⟩
    have hfits := h.fits
    rw [pow_zero, mul_one] at hfits
    exact_mod_cast hfits
  rw [Quotes, and_iff_right hdigits, hvalue]
  by_cases hrti : rti = 1
  · rw [if_pos hrti, h.rounds_iff (by decide), Nat.cast_zero, sub_zero]
    exact and_iff_left (hhalf hrti)
  · rw [if_neg hrti, and_iff_right hroom, ← scaled_succ]
    constructor
    · intro hplace
      exact place_unique (by decide) (by decide) h.pos hplace ⟨h.le, h.lt⟩
    · rintro rfl
      exact ⟨h.le, h.lt⟩

end Value

theorem lzerotrim_of_head {s : List Byte} (h : s.head? ≠ some zero) : lzerotrim s = s := by
  cases s with
  | nil => rfl
  | cons c s =>
    cases s with
    | nil => rfl
    | cons d s =>
      rw [lzerotrim, if_neg]
      intro hc
      exact h (congrArg some hc)

section Wanted

variable {s : List Byte} {t : Nat} {p : Int} {x : ℚ}

/-- The wanted digits of a string without leading zeros lead what lies above its number. -/
theorem leads_wanted (hs : Plain s) (hhead : s.head? ≠ some zero) (hpos : 1 ≤ t) (ht : t < s.length)
    (hx : scaled 10 (number s) p ≤ x ∧ x < scaled 10 (number s + 1) p) :
    Leads 10 t (number (s.take t)) 0 (p + (s.length - t : Nat)) x := by
  have hlength : (s.take t).length = t := List.length_take_of_le ht.le
  have hplain : Plain (s.take t) := by
    refine ⟨?_, fun c hc => hs.digits c (List.mem_of_mem_take hc), ?_⟩
    · rw [← List.length_pos_iff, hlength]
      exact hpos
    · have hlen := hs.length
      omega
  have hhead' : (s.take t).head? ≠ some zero := by
    rw [List.head?_take, if_neg (by omega)]
    exact hhead
  have hwanted : 0 < number (s.take t) :=
    (Nat.pow_pos (by decide)).trans_le (pow_le_number hplain hhead')
  have hleads := leads_take hs.digits hs.length ht hwanted p
  have hzeros : leadingZeros (s.take t) = 0 := by
    rw [leadingZeros, lzerotrim_of_head hhead', Nat.sub_self]
  rw [hzeros] at hleads
  exact hleads.between (by decide) (by omega) hx

/-- Dropped digits below a half leave less than a half. -/
theorem below_half (hs : Digits s) (hx : x < scaled 10 (number s + 1) p) (ht : t < s.length)
    (hhalf : 2 * (number s % 10 ^ (s.length - t)) < 10 ^ (s.length - t)) :
    2 * (x - scaled 10 (number (s.take t)) (p + (s.length - t : Nat))) <
      (10 : ℚ) ^ (p + (s.length - t : Nat)) := by
  have hpow : 10 ^ (s.length - t) = 10 ^ (s.length - t - 1) * 10 := by
    rw [← pow_succ]
    congr 1
    omega
  have hroom : 2 * (number (s.drop t) + 1) ≤ 10 ^ (s.length - t) := by
    rw [number_mod hs] at hhalf
    omega
  have hunit : (10 : ℚ) ^ (p + (s.length - t : Nat)) =
      scaled 10 ((10 : Int) ^ (s.length - t)) p := by
    have hshift : scaled 10 (1 * 10 ^ (s.length - t)) p = scaled 10 1 (p + (s.length - t : Nat)) :=
      scaled_shift (by decide) 1 p (s.length - t)
    rw [one_mul] at hshift
    rw [hshift, scaled, Int.cast_one, one_mul]
    rfl
  have hrest : scaled 10 (number s + 1) p -
      scaled 10 (number (s.take t)) (p + (s.length - t : Nat)) =
        scaled 10 (number (s.drop t) + 1 : Nat) p := by
    rw [← scaled_shift (by decide), ← scaled_sub, number_take_drop s t]
    congr 1
    push_cast
    ring
  have htwo : 2 * scaled 10 (number (s.drop t) + 1 : Nat) p =
      scaled 10 (2 * (number (s.drop t) + 1) : Nat) p := by
    simp only [scaled]
    push_cast
    ring
  calc 2 * (x - scaled 10 (number (s.take t)) (p + (s.length - t : Nat)))
      < 2 * scaled 10 (number (s.drop t) + 1 : Nat) p := by
        rw [← hrest]
        linarith
    _ = scaled 10 (2 * (number (s.drop t) + 1) : Nat) p := htwo
    _ ≤ scaled 10 ((10 : Int) ^ (s.length - t)) p := by
        rw [scaled_le_left_iff (by decide)]
        exact_mod_cast hroom
    _ = (10 : ℚ) ^ (p + (s.length - t : Nat)) := hunit.symm

end Wanted

/-- The quotient `q` with its last digit in place `p` can be returned: all its digits are wanted and
    the exponent is one of a `long`; or some are to be dropped, less than a half of the last one if it
    is to be rounded, and the exponent is not positive. -/
def Kept (rti t q : Nat) (p : Int) : Prop :=
  places q ≤ t ∧ -2 ^ 63 ≤ p ∧ p < 2 ^ 63 ∨
    t < places q ∧ -2 ^ 63 ≤ p ∧ p ≤ 0 ∧
      (rti = 1 → 2 * (q % 10 ^ (places q - t)) < 10 ^ (places q - t))

section Result

variable {a b : Decimal} {k t rti : Nat} {tdigits : BitVec 64} {s : Division}

/-- Where nothing is left, the digits are all of the quotient. -/
theorem spent_exact (hb : 0 < number b.digits) (hasign : a.sign = 0) (hbsign : b.sign = 0)
    (h : Spent a b k) : a.value / b.value = scaled 10 (quotient a b k) (placeOf a b k) := by
  obtain ⟨hlen, hrem⟩ := h
  have hdivisor : 0 < b.value := by
    rw [Decimal.value, hbsign, signed_zero_left]
    exact scaled_pos (by decide) (by exact_mod_cast hb)
  obtain ⟨hquotient, hdividend⟩ := times_divisor (quotient a b k) k hasign hbsign
  have hbrought : quotient a b k * number b.digits = number a.digits * 10 ^ (k - a.digits.length) := by
    have hmul := Nat.div_mul_cancel (Nat.dvd_of_mod_eq_zero hrem)
    rw [brought, List.take_of_length_le hlen] at hmul
    rw [quotient, brought, List.take_of_length_le hlen]
    exact hmul
  rw [div_eq_iff hdivisor.ne', hquotient, hdividend, hbrought, Nat.sub_eq_zero_of_le hlen, pow_zero,
    Nat.mul_one]

/-- Few digits come out only where nothing is left. -/
theorem spent_of_places {first : Int} (hstops : Stops a b first k) (hfirst : t ≤ first)
    (hplaces : places (quotient a b k) ≤ t) : Spent a b k := by
  rcases hstops with henough | hspent
  · have hlt : quotient a b k < 10 ^ t := (Nat.digits_length_le_iff (by decide) _).mp hplaces
    have hle : nonzeros 10 (quotient a b k) ≤ t := nonzeros_le (by decide) hlt
    unfold Enough at henough
    omega
  · exact hspent.1

/-- What comes out is what is asked for exactly if the whole dividend is brought down and the quotient
    can be returned. -/
theorem divideEnd_quotes_iff (ha : Digits a.digits) (hb : 0 < number b.digits)
    (hlen : a.digits.length ≤ 65535) (hasign : a.sign = 0) (hbsign : b.sign = 0)
    (h : Produced a b k s) (hk : 1 ≤ k ∧ k ≤ 65535) (hq : quotient a b k ≠ 0)
    (hrti : rti = 0 ∨ rti = 1) (ht : tdigits.toInt = t) (hpos : 1 ≤ t)
    (hstops : Stops a b (firstPrecision tdigits rti) k) :
    ∃ d, divideEnd 0 tdigits rti s = .ok (strNormal, d) ∧
      (Quotes rti t (a.value / b.value) d ↔
        a.digits.length ≤ k ∧ Kept rti t (quotient a b k) (placeOf a b k)) := by
  obtain ⟨hplain, hhead, hnumber, hlength⟩ := h.trimmed hk hq
  have hdigits := hplain.digits
  by_cases hplaces : places (quotient a b k) ≤ t
  · have hfirst : (t : Int) ≤ firstPrecision tdigits rti := by
      unfold firstPrecision
      split <;> omega
    have hspent := spent_of_places hstops hfirst hplaces
    refine ⟨_, divideEnd_short h hk hq ht hplaces, ?_⟩
    rw [spent_exact hb hasign hbsign hspent, quotes_exact_iff hdigits hnumber hq hplaces,
      h.exp_iff hspent.1]
    unfold Kept
    rw [and_iff_right hspent.1, and_iff_right hplaces, or_iff_left]
    rintro ⟨hlt, _⟩
    omega
  · have hlong : t < (lzerotrim s.result).length := by omega
    have hlen16 := (hplain.text s.exp).len
    have hbounds := quotient_bounds ha hb hasign hbsign k
    rw [← hnumber, Nat.cast_succ] at hbounds
    have hleads := leads_wanted hplain hhead hpos hlong hbounds
    have hkept : Kept rti t (quotient a b k) (placeOf a b k) ↔
        -2 ^ 63 ≤ placeOf a b k ∧ placeOf a b k ≤ 0 ∧
          (rti = 1 → digitOf ((lzerotrim s.result).getD t 0) < 5) := by
      rw [← half_iff hdigits hlong, hnumber, hlength]
      unfold Kept
      rw [or_iff_right (fun hshort => hplaces hshort.1), and_iff_right (by omega)]
    rw [hkept]
    by_cases hhalf : rti = 1 → digitOf ((lzerotrim s.result).getD t 0) < 5
    · refine ⟨_, divideEnd_long h hk hq hrti ht (by omega) hhalf, ?_⟩
      have hdrop : rti = 1 → 2 * (a.value / b.value - scaled 10 (number ((lzerotrim s.result).take t))
          (placeOf a b k + ((lzerotrim s.result).length - t : Nat))) <
            (10 : ℚ) ^ (placeOf a b k + ((lzerotrim s.result).length - t : Nat)) := by
        intro hrti
        exact below_half hdigits hbounds.2 hlong ((half_iff hdigits hlong).mpr (hhalf hrti))
      have hwanted : Digits ((lzerotrim s.result).take t) :=
        fun c hc => hdigits c (List.mem_of_mem_take hc)
      have hlt16 := hlong
      rw [← hlen16] at hlt16
      have hexp := h.correct_iff hlen ht hlt16
      rw [hlen16] at hexp
      rw [quotes_leads_iff hwanted rfl hleads hdrop, hexp, and_iff_left hhalf]
    · obtain rfl : rti = 1 := by
        by_contra hne
        exact hhalf fun h1 => absurd h1 hne
      have hup : 5 ≤ digitOf ((lzerotrim s.result).getD t 0) := by
        by_contra hlt
        exact hhalf fun _ => by omega
      refine ⟨_, divideEnd_up h hk hq ht hpos (by omega) hup, ?_⟩
      refine iff_of_false ?_ fun hright => hhalf hright.2.2.2
      rintro ⟨_, hright⟩
      have hnone : Decimal.value ⟨0, correct s.exp (Decimal.len ⟨0, s.exp, lzerotrim s.result⟩)
          tdigits, []⟩ = 0 := by
        simp [Decimal.value, signed]
      have hwanted : (0 : Int) < number ((lzerotrim s.result).take t) := by
        have hone := hleads.pos
        omega
      rw [if_pos rfl, hnone] at hright
      exact not_rounds_zero (hleads.significant (by decide)) (scaled_pos (by decide) hwanted)
        hleads.le hright

end Result

/-! ### The call -/

section Call

variable {behind : Int → Byte} {a b c : Decimal} {tdigits : BitVec 64} {t rti steps : Nat}

theorem signsValid_of_zero (hasign : a.sign = 0) (hbsign : b.sign = 0) : signsValid a b = true := by
  simp [signsValid, hasign, hbsign]

/-- A dividend that is zero is not divided. -/
theorem strDivide_zero (ha : Digits a.digits) (hasign : a.sign = 0) (hbsign : b.sign = 0)
    (hdivisor : ∃ c ∈ b.digits, c ≠ zero) (hc : 2 ≤ c.digits.length) (hzero : number a.digits = 0) :
    strDivide behind steps a b tdigits rti c =
      .ok (some (strNormal, ⟨0, c.exp, zero :: 0 :: c.digits.drop 2⟩)) := by
  have hvalid := signsValid_of_zero hasign hbsign
  have hearly : divideEarly a b = some strNormal := by
    have hnot : ¬ ∀ c ∈ b.digits, c = zero := by
      obtain ⟨c, hc, hcz⟩ := hdivisor
      exact fun h => hcz (h c hc)
    rw [divideEarly, if_neg hnot, if_neg (not_not_intro hvalid),
      if_pos ((number_eq_zero_iff ha).mp hzero)]
  rw [strDivide, strcpyZero_ok hc]
  simp only [bind, Except.bind, hearly, if_neg (not_not_intro hvalid), hasign, hbsign, reduceIte]
  rfl

/-- Any other is, and the loops have to be left. -/
theorem strDivide_eq (ha : Digits a.digits) (hasign : a.sign = 0) (hbsign : b.sign = 0)
    (hdivisor : ∃ c ∈ b.digits, c ≠ zero) (hc : 2 ≤ c.digits.length) (hne : number a.digits ≠ 0)
    (r : Nat × Decimal) :
    strDivide behind steps a b tdigits rti c = .ok (some r) ↔
      ∃ s, divideLoop behind 0 steps (divideStart a b tdigits rti) = .ok (some s) ∧
        divideEnd 0 tdigits rti s = .ok r := by
  have hvalid := signsValid_of_zero hasign hbsign
  have hearly := (divideEarly_eq_none_iff ha hdivisor).mpr ⟨hvalid, hne⟩
  rw [strDivide, strcpyZero_ok hc]
  simp only [bind, Except.bind, hearly, if_neg (not_not_intro hvalid), hasign, hbsign, reduceIte]
  constructor
  · intro h
    cases hloop : divideLoop behind 0 steps (divideStart a b tdigits rti) with
    | error e =>
      rw [hloop] at h
      cases h
    | ok o =>
      rw [hloop] at h
      cases o with
      | none => cases h
      | some s =>
        refine ⟨s, rfl, ?_⟩
        cases hend : divideEnd 0 tdigits rti s with
        | error e =>
          simp only [hend] at h
          cases h
        | ok r' =>
          simp only [hend] at h
          cases h
          rfl
  · rintro ⟨s, hloop, hend⟩
    simp only [hloop, hend]
    rfl

/-- Where the loops are left, the quotient is not zero. -/
theorem LeavesAt.quotient_ne_zero {first : Int} {k : Nat} (h : LeavesAt a b first k)
    (hfirst : 0 ≤ first) (hne : number a.digits ≠ 0) : quotient a b k ≠ 0 := by
  intro hzero
  rcases h.stops with henough | hspent
  · rw [Enough, hzero, nonzeros_zero] at henough
    omega
  · exact not_spent_of_quotient hne hzero hspent.1

end Call

/-- The call returns what is asked for, if it gets enough steps. -/
def DividedRight (behind : Int → Byte) (a b : Decimal) (tdigits : BitVec 64) (rti t : Nat)
    (c : Decimal) : Prop :=
  ∃ steps d, strDivide behind steps a b tdigits rti c = .ok (some (strNormal, d)) ∧
    Quotes rti t (a.value / b.value) d

/-- The dividend is not zero, at most 65535 digits bring the loops to their end, they bring down the
    whole dividend, and the quotient can be returned. -/
def DivideHolds (a b : Decimal) (tdigits : BitVec 64) (rti t : Nat) : Prop :=
  number a.digits ≠ 0 ∧ ∃ k, LeavesAt a b (firstPrecision tdigits rti) k ∧ a.digits.length ≤ k ∧
    Kept rti t (quotient a b k) (placeOf a b k)

/-- Numbers that are not negative, a divisor that is not zero, and a destination with room for the
    zero that is put there first. -/
structure Divisible (a b c : Decimal) : Prop where
  dividendSign : a.sign = 0
  divisorSign : b.sign = 0
  dividend : Digits a.digits
  divisor : Digits b.digits
  dividendLength : a.digits.length ≤ 65535
  divisorLength : b.digits.length ≤ 65535
  nonzero : ∃ c ∈ b.digits, c ≠ zero
  destination : 2 ≤ c.digits.length

section Main

variable {behind : Int → Byte} {a b c : Decimal} {tdigits : BitVec 64} {t rti : Nat}

theorem Divisible.plain (h : Divisible a b c) : Plain b.digits := by
  obtain ⟨c, hc, _⟩ := h.nonzero
  exact ⟨List.ne_nil_of_mem hc, h.divisor, h.divisorLength⟩

theorem Divisible.pos (h : Divisible a b c) : 0 < number b.digits := by
  rw [Nat.pos_iff_ne_zero, ne_eq, number_eq_zero_iff h.divisor]
  obtain ⟨c, hc, hcz⟩ := h.nonzero
  exact fun hzero => hcz (hzero c hc)

theorem firstPrecision_pos (ht : tdigits.toInt = t) (hpos : 1 ≤ t) :
    0 < firstPrecision tdigits rti := by
  unfold firstPrecision
  split <;> omega

theorem divideHolds_of_right (h : Divisible a b c) (hrti : rti = 0 ∨ rti = 1)
    (ht : tdigits.toInt = t) (hpos : 1 ≤ t) (hright : DividedRight behind a b tdigits rti t c) :
    DivideHolds a b tdigits rti t := by
  obtain ⟨steps, d, hrun, hquotes⟩ := hright
  have hfirst : 0 < firstPrecision tdigits rti := firstPrecision_pos ht hpos
  by_cases hzero : number a.digits = 0
  · rw [strDivide_zero h.dividend h.dividendSign h.divisorSign h.nonzero h.destination hzero] at hrun
    cases hrun
    exact absurd (digits_cons.mp (digits_cons.mp hquotes.1).2).1 (by decide)
  · refine ⟨hzero, ?_⟩
    rw [strDivide_eq h.dividend h.dividendSign h.divisorSign h.nonzero h.destination hzero] at hrun
    obtain ⟨s, hloop, hend⟩ := hrun
    have hnone : ¬ Enough a b (firstPrecision tdigits rti) 0 := by
      have hquotient : quotient a b 0 = 0 := by simp [quotient, brought]
      rw [Enough, hquotient, nonzeros_zero]
      omega
    obtain ⟨k, hk, hle, hstops, hproduced, hbefore⟩ := divideLoop_ended h.dividend h.pos
      (atDigit_start h.plain tdigits rti) (by omega) hnone hloop
    have hleaves : LeavesAt a b (firstPrecision tdigits rti) k := ⟨hk, hle, hstops, hbefore⟩
    obtain ⟨d', hend', hiff⟩ := divideEnd_quotes_iff h.dividend h.pos h.dividendLength h.dividendSign
      h.divisorSign hproduced ⟨hk, hle⟩ (hleaves.quotient_ne_zero hfirst.le hzero) hrti ht hpos hstops
    rw [hend] at hend'
    cases hend'
    exact ⟨k, hleaves, hiff.mp hquotes⟩

theorem right_of_divideHolds (h : Divisible a b c) (hrti : rti = 0 ∨ rti = 1)
    (ht : tdigits.toInt = t) (hpos : 1 ≤ t) (hholds : DivideHolds a b tdigits rti t) :
    DividedRight behind a b tdigits rti t c := by
  obtain ⟨hne, k, hleaves, hkept⟩ := hholds
  have hfirst : 0 < firstPrecision tdigits rti := firstPrecision_pos ht hpos
  have hk := hleaves.pos
  have henough : ∀ i, 0 ≤ i → i < k → ¬ Enough a b (firstPrecision tdigits rti) i := by
    intro i _ hi
    rcases Nat.eq_zero_or_pos i with rfl | hi0
    · have hquotient : quotient a b 0 = 0 := by simp [quotient, brought]
      rw [Enough, hquotient, nonzeros_zero]
      omega
    · exact (hleaves.before i hi0 hi).1
  obtain ⟨s, hloop, hproduced⟩ := divideLoop_ends (m := k - 1) h.dividend h.pos behind hleaves.le
    hleaves.stops (atDigit_start h.plain tdigits rti) (by omega) henough
    (fun i hi hik => (hleaves.before i hi hik).2)
  obtain ⟨d, hend, hiff⟩ := divideEnd_quotes_iff h.dividend h.pos h.dividendLength h.dividendSign
    h.divisorSign hproduced ⟨hk, hleaves.le⟩ (hleaves.quotient_ne_zero hfirst.le hne) hrti ht hpos
    hleaves.stops
  refine ⟨k - 1 + 12, d, ?_, hiff.mpr hkept⟩
  rw [strDivide_eq h.dividend h.dividendSign h.divisorSign h.nonzero h.destination hne]
  exact ⟨s, hloop, hend⟩

end Main

/-- **Exactly when `str$divide` gives the wanted digits of the quotient.** -/
theorem strDivide_right_iff (behind : Int → Byte) (a b c : Decimal) (tdigits : BitVec 64)
    (rti t : Nat) (h : Divisible a b c) (hrti : rti = 0 ∨ rti = 1) (ht : tdigits.toInt = t)
    (hpos : 1 ≤ t) : DividedRight behind a b tdigits rti t c ↔ DivideHolds a b tdigits rti t :=
  ⟨divideHolds_of_right h hrti ht hpos, right_of_divideHolds h hrti ht hpos⟩

/-- 2 / 3 to one digit is 0.6. -/
theorem two_by_three :
    DividedRight (fun _ => 0) ⟨0, 0, [50]⟩ ⟨0, 0, [51]⟩ 1 0 1 ⟨0, 0, [48, 48]⟩ := by
  refine (strDivide_right_iff (fun _ => 0) ⟨0, 0, [50]⟩ ⟨0, 0, [51]⟩ ⟨0, 0, [48, 48]⟩ 1 0 1
    ⟨rfl, rfl, by decide, by decide, by decide, by decide, ⟨51, by decide, by decide⟩, by decide⟩
    (Or.inl rfl) (by decide) (by decide)).mpr ?_
  refine ⟨by decide, 3, ⟨by decide, by decide, Or.inl ?_, ?_⟩, by decide, Or.inr ⟨?_, ?_, ?_, ?_⟩⟩
  · decide
  · intro i hi hlt
    obtain rfl | rfl : i = 1 ∨ i = 2 := by omega
    · decide
    · decide
  · decide
  · decide
  · decide
  · decide

/-- 12345 / 7 to two digits is 1700: the loops end before the whole dividend is brought down, and
    nothing makes up for the digit that is left. -/
theorem twelve_thousand_by_seven :
    ¬ DividedRight (fun _ => 0) ⟨0, 0, [49, 50, 51, 52, 53]⟩ ⟨0, 0, [55]⟩ 2 0 2 ⟨0, 0, [48, 48]⟩ := by
  intro hright
  obtain ⟨_, k, hleaves, hlen, _⟩ := divideHolds_of_right
    ⟨rfl, rfl, by decide, by decide, by decide, by decide, ⟨55, by decide, by decide⟩, by decide⟩
    (Or.inl rfl) (by decide) (by decide) hright
  have henough : Enough ⟨0, 0, [49, 50, 51, 52, 53]⟩ ⟨0, 0, [55]⟩ (firstPrecision 2 0) 4 := by
    decide
  exact (hleaves.before 4 (by decide) hlen).1 henough

end FreeVMS.Rtl.Num
