import FreeVMS.Lib.Rounding
import FreeVMS.Rtl.DecimalInteger

/-!
# Rounding decimals

`str$round` drops the digits behind the wanted ones. What comes out is the rounded number only if
nothing is to be added, and if what was in `csign` and `cexp` before happens to fit: the routine
never looks at its operand's exponent.
-/

namespace FreeVMS.Rtl.Num

open Lib.Digits Lib.Scaled Lib.Rounding

/-! ### The call -/

/-- Digits that a `long` counts are fewer than the string has. -/
theorem tdigits_small {tdigits : BitVec 64} {t : Nat} (ht : tdigits.toInt = t) (hlt : t < 65536) :
    tdigits = BitVec.ofNat 64 t ∧ tdigits.toNat = t ∧ (tdigits.setWidth 16).toNat = t := by
  have hnat : tdigits.toNat = t := by
    have hcond := BitVec.toInt_eq_toNat_cond tdigits
    omega
  refine ⟨?_, hnat, ?_⟩
  · rw [← hnat, BitVec.ofNat_toNat, BitVec.setWidth_eq]
  · rw [BitVec.toNat_setWidth, hnat]
    omega

theorem get1_of_le {n : Nat} {s : List Byte} (h : n ≤ s.length) : get1 n s = s.take n := by
  rw [get1, List.take_append_of_le_length h]

/-- A digit string with a sign, as a descriptor can hold it. -/
structure Decimal.Text (d : Decimal) : Prop where
  sign : d.sign = 0 ∨ d.sign = 1
  digits : Digits d.digits
  length : d.digits.length ≤ 65535

theorem Decimal.Text.len {d : Decimal} (h : d.Text) : d.len.toNat = d.digits.length :=
  Decimal.toNat_len h.length

section Call

variable {tdigits : BitVec 64} {t rti : Nat} {a c : Decimal} {aexp : BitVec 64 → BitVec 64}

/-- Wrong signs in the operand or in the place of the result. -/
theorem strRoundAt_invarg (ha : a.Text) (hc : ¬ (c.sign = 0 ∨ c.sign = 1)) :
    strRoundAt aexp tdigits rti a c = .ok (libInvarg, c) := by
  rw [strRoundAt, if_neg (not_not_intro ha.sign), if_pos hc]

/-- No more digits than wanted. -/
theorem strRoundAt_short (ha : a.Text) (hc : c.sign = 0 ∨ c.sign = 1) (hrti : rti = 0 ∨ rti = 1)
    (ht : tdigits.toInt = t) (h : a.digits.length ≤ t) :
    strRoundAt aexp tdigits rti a c = .ok (strNormal, { c with digits := a.digits }) := by
  rw [strRoundAt, if_neg (not_not_intro ha.sign), if_neg (not_not_intro hc),
    if_neg (not_not_intro hrti), if_pos (by rw [ha.len, ht]; exact_mod_cast h)]

theorem truncateTo_eq (ha : a.Text) (ht : tdigits.toInt = t) (h : t < a.digits.length) :
    truncateTo tdigits a c = ⟨c.sign, correct c.exp a.len tdigits, a.digits.take t⟩ := by
  have hlen := ha.length
  obtain ⟨_, _, hwidth⟩ := tdigits_small ht (by omega)
  rw [truncateTo, hwidth, get1_of_le h.le]

/-- The digit behind the wanted ones. -/
theorem rounding_digit (ha : a.Text) (h : t < a.digits.length) :
    IsDigit (a.digits.getD t 0) ∧ ¬ (a.digits.getD t 0).toInt < 0 ∧
      ((a.digits.getD t 0).slt 53 = true ↔ digitOf (a.digits.getD t 0) < 5) := by
  have hdigit : IsDigit (a.digits.getD t 0) := by
    rw [List.getD_eq_getElem _ _ h]
    exact ha.digits _ (List.getElem_mem h)
  have hfive : digitOf 53 = 5 := rfl
  refine ⟨hdigit, ?_, ?_⟩
  · rw [toInt_of_isDigit hdigit]
    omega
  · rw [slt_digit (by decide) hdigit, hfive]

/-- More digits than wanted: the rest is dropped, unless a digit from 5 on comes first. -/
theorem strRoundAt_long (ha : a.Text) (hc : c.sign = 0 ∨ c.sign = 1) (hrti : rti = 0 ∨ rti = 1)
    (ht : tdigits.toInt = t) (h : t < a.digits.length)
    (hdown : rti = 1 ∨ digitOf (a.digits.getD t 0) < 5) :
    strRoundAt aexp tdigits rti a c =
      .ok (strNormal, ⟨c.sign, correct c.exp a.len tdigits, a.digits.take t⟩) := by
  have hlen := ha.length
  obtain ⟨_, hnat, _⟩ := tdigits_small ht (by omega)
  obtain ⟨_, hsigned, hslt⟩ := rounding_digit ha h
  rw [strRoundAt, if_neg (not_not_intro ha.sign), if_neg (not_not_intro hc),
    if_neg (not_not_intro hrti), if_neg (by rw [ha.len, ht]; omega)]
  rcases hdown with rfl | hdown
  · rw [if_neg (by decide), truncateTo_eq ha ht h]
  · by_cases hzero : rti = 0
    · rw [if_pos hzero, if_neg (by omega), hnat]
      simp only [if_neg hsigned, if_pos (hslt.mpr hdown), truncateTo_eq ha ht h]
    · rw [if_neg hzero, truncateTo_eq ha ht h]

/-- Nothing can be added: the digits to add to are in the place of the result already. -/
theorem strRoundAt_up (ha : a.Text) (hc : c.sign = 0 ∨ c.sign = 1)
    (ht : tdigits.toInt = t) (hpos : 1 ≤ t) (h : t < a.digits.length)
    (hup : 5 ≤ digitOf (a.digits.getD t 0)) :
    strRoundAt aexp tdigits 0 a c = .ok (strNormal, ⟨a.sign, correct c.exp a.len tdigits, []⟩) := by
  have hlen := ha.length
  obtain ⟨_, hnat, _⟩ := tdigits_small ht (by omega)
  obtain ⟨_, hsigned, hslt⟩ := rounding_digit ha h
  have hup' : ¬ (a.digits.getD t 0).slt 53 = true := by
    rw [hslt]
    omega
  have hne : a.digits.take t ≠ [] := by
    rw [← List.length_pos_iff, List.length_take]
    omega
  have hsame : (if a.sign = 1 ∧ a.sign = 1 then 1 else 0) = a.sign := by
    rcases ha.sign with hsign | hsign <;> simp [hsign]
  have hdispatch : ¬ ((a.sign = 1 ∧ a.sign = 0) ∨ (a.sign = 0 ∧ a.sign = 1)) := by omega
  rw [strRoundAt, if_neg (not_not_intro ha.sign), if_neg (not_not_intro hc),
    if_neg (by decide), if_neg (by rw [ha.len, ht]; omega), if_pos rfl, if_neg (by omega), hnat]
  simp only [if_neg hsigned, if_neg hup', truncateTo_eq ha ht h, strAdd, if_neg hdispatch, addEqual,
    if_pos hne, hsame]
  rfl

end Call

/-! ### The value -/

/-- The zeros in front of the other digits. -/
def leadingZeros (s : List Byte) : Nat := s.length - (lzerotrim s).length

/-- What is asked for: truncation for `rti` 1, rounding for `rti` 0. -/
def RightDigits (rti t : Nat) (x v : ℚ) : Prop :=
  if rti = 1 then Truncates 10 t x v else Rounds 10 t x v

/-- How often the dropped digits go into the last one at most. -/
def parts (rti : Nat) : Nat := if rti = 1 then 1 else 2

theorem rightDigits_exact_iff {rti t : Nat} {x v : ℚ} (h : Significant 10 t x) :
    RightDigits rti t x v ↔ v = x := by
  unfold RightDigits
  split
  · exact truncates_exact_iff h
  · exact rounds_exact_iff h

theorem rightDigits_neg_iff {rti t : Nat} {x v : ℚ} :
    RightDigits rti t (-x) (-v) ↔ RightDigits rti t x v := by
  unfold RightDigits
  split
  · exact truncates_neg_iff
  · exact rounds_neg_iff

theorem not_rightDigits_zero {rti t : Nat} (ht : t ≠ 0) {i : Nat} (hi : i = 0 ∨ i = 1) {n k : Int}
    (hn : 0 < n) : ¬ RightDigits rti t (scaled 10 (signed i n) k) 0 := by
  have hroom : Significant 10 t (scaled 10 1 k) := significant_pow (by decide) ht k
  have hone : 0 < scaled 10 1 k := scaled_pos (by decide) one_pos
  have hle : scaled 10 1 k ≤ scaled 10 n k := (scaled_le_left_iff (by decide)).mpr hn
  have hpositive : ¬ RightDigits rti t (scaled 10 n k) 0 := by
    unfold RightDigits
    split
    · exact not_truncates_zero hroom hone hle
    · exact not_rounds_zero hroom hone hle
  rcases hi with rfl | rfl
  · rwa [signed_zero_left]
  · rwa [signed_one, scaled_neg, ← neg_zero, rightDigits_neg_iff]

theorem RightDigits.sign {rti t : Nat} {x v : ℚ} (h : RightDigits rti t x v) : 0 ≤ v * x := by
  unfold RightDigits at h
  split at h
  · exact Truncates.sign h
  · exact Rounds.sign (by decide) h

/-- Both rules in one. -/
theorem rightDigits_iff {rti t : Nat} {m e f : Int} {q : Nat} {x : ℚ} (h : Leads 10 t m q f x) :
    RightDigits rti t x (scaled 10 m e) ↔
      e = f ∧ (parts rti : ℚ) * (x - scaled 10 m f) < (10 : ℚ) ^ (f - q) := by
  have hnext : scaled 10 (m * ((10 : Nat) : Int) ^ q + 1) (f - q) =
      scaled 10 m f + (10 : ℚ) ^ (f - q) := by
    rw [scaled_add, ← Leads.eq_full (by decide)]
    simp [scaled]
  unfold RightDigits parts
  split
  · rw [h.truncates_iff (by decide), hnext, Nat.cast_one, one_mul, sub_lt_iff_lt_add']
  · rw [h.rounds_iff (by decide), Nat.cast_ofNat, Nat.cast_ofNat]

/-- The signs have to agree. -/
theorem rightDigits_signed_iff {rti t i j : Nat} (hi : i = 0 ∨ i = 1) (hj : j = 0 ∨ j = 1)
    {m n e k : Int} (hm : 0 < m) (hn : 0 < n) :
    RightDigits rti t (scaled 10 (signed i n) k) (scaled 10 (signed j m) e) ↔
      j = i ∧ RightDigits rti t (scaled 10 n k) (scaled 10 m e) := by
  have hmpos : 0 < scaled 10 m e := scaled_pos (by decide) hm
  have hnpos : 0 < scaled 10 n k := scaled_pos (by decide) hn
  have hprod : 0 < scaled 10 m e * scaled 10 n k := mul_pos hmpos hnpos
  rcases hi with rfl | rfl <;> rcases hj with rfl | rfl
  · rw [signed_zero_left, signed_zero_left]
    simp
  · rw [signed_zero_left, signed_one, scaled_neg]
    refine iff_of_false (fun h => ?_) fun h => absurd h.1 (by decide)
    have hsign := h.sign
    linarith
  · rw [signed_zero_left, signed_one, scaled_neg]
    refine iff_of_false (fun h => ?_) fun h => absurd h.1 (by decide)
    have hsign := h.sign
    linarith
  · rw [signed_one, signed_one, scaled_neg, scaled_neg, rightDigits_neg_iff]
    simp

/-! ### What comes out -/

/-- What is asked of a call. -/
def Rounded (tdigits : BitVec 64) (rti t : Nat) (a c : Decimal) : Prop :=
  ∃ d, strRound tdigits rti a c = .ok (strNormal, d) ∧ RightDigits rti t a.value d.value ∧
    (a.digits.length ≤ t → d.value = a.value)

/-- Zero, or the sign and the exponent that were there are right, the wanted digits are not all
    zeros, and too little follows them to count, even in the places of the zeros in front. -/
def RoundHolds (tdigits : BitVec 64) (rti t : Nat) (a c : Decimal) : Prop :=
  (c.sign = 0 ∨ c.sign = 1) ∧
    (number a.digits = 0 ∨
      c.sign = a.sign ∧
        if a.digits.length ≤ t then c.exp = a.exp
        else
          number (a.digits.take t) ≠ 0 ∧
            (correct c.exp a.len tdigits).toInt = a.exp.toInt + (a.digits.length - t : Nat) ∧
            parts rti * number (a.digits.drop t) <
              10 ^ (a.digits.length - t - leadingZeros (a.digits.take t)))

/-- The exponent that comes out is the same whatever was in its place. -/
def ExponentFromInputs (tdigits : BitVec 64) (rti : Nat) (a c : Decimal) : Prop :=
  ∃ out, ∀ exp, ∃ r, strRound tdigits rti a { c with exp := exp } = .ok r ∧ r.2.exp = out

section Result

variable {tdigits : BitVec 64} {t rti : Nat} {a c : Decimal}

/-- The number of a string by its wanted digits and the others. -/
theorem number_take_drop (s : List Byte) (t : Nat) :
    number s = number (s.take t) * 10 ^ (s.length - t) + number (s.drop t) := by
  conv_lhs => rw [← List.take_append_drop t s]
  rw [number_append, List.length_drop]

theorem number_drop_lt {s : List Byte} (hs : Digits s) (t : Nat) :
    number (s.drop t) < 10 ^ (s.length - t) := by
  have hlt := number_lt (s := s.drop t) fun c hc => hs c (List.mem_of_mem_drop hc)
  rwa [List.length_drop] at hlt

/-- The wanted digits lead the number. -/
theorem leads_take {s : List Byte} (hs : Digits s) (hlen : s.length ≤ 65535) (ht : t < s.length)
    (hpos : 0 < number (s.take t)) (k : Int) :
    Leads 10 t (number (s.take t)) (leadingZeros (s.take t)) (k + (s.length - t : Nat))
      (scaled 10 (number s) k) := by
  have hlength : (s.take t).length = t := List.length_take_of_le ht.le
  have hplain : Plain (s.take t) := by
    refine ⟨?_, fun c hc => hs c (List.mem_of_mem_take hc), by omega⟩
    intro hnil
    rw [hnil] at hpos
    exact absurd hpos (Nat.lt_irrefl 0)
  have hrest := number_drop_lt hs t
  obtain ⟨htrim, htrimmed, hnumber, hle⟩ := trim_plain hplain
  have hone := List.length_pos_iff.mpr htrim.nonempty
  have hhead : (lzerotrim (s.take t)).head? ≠ some zero := by
    rcases htrimmed with hzero | hhead
    · rw [← hnumber, hzero] at hpos
      exact absurd hpos (by decide)
    · exact hhead
  have hlow := pow_le_number htrim hhead
  have hhigh := number_lt htrim.digits
  rw [hnumber] at hlow hhigh
  unfold leadingZeros
  rw [hlength] at hle ⊢
  generalize hL : (lzerotrim (s.take t)).length = L at *
  refine ⟨by omega, ?_, ?_, ?_, ?_⟩
  · have hsplit : 10 ^ t = 10 ^ (L - 1) * 10 ^ (t - L) * 10 := by
      rw [← pow_add, ← pow_succ]
      congr 1
      omega
    have hmul : 10 ^ (L - 1) * 10 ^ (t - L) * 10 ≤ number (s.take t) * 10 ^ (t - L) * 10 :=
      Nat.mul_le_mul_right _ (Nat.mul_le_mul_right _ hlow)
    rw [← hsplit] at hmul
    exact_mod_cast hmul
  · have hsplit : 10 ^ t = 10 ^ L * 10 ^ (t - L) := by
      rw [← pow_add]
      congr 1
      omega
    have hmul : number (s.take t) * 10 ^ (t - L) < 10 ^ L * 10 ^ (t - L) :=
      Nat.mul_lt_mul_of_pos_right hhigh (Nat.pow_pos (by decide))
    rw [← hsplit] at hmul
    exact_mod_cast hmul
  · rw [← scaled_shift (by decide), scaled_le_left_iff (by decide), number_take_drop s t]
    push_cast
    omega
  · rw [← scaled_shift (by decide), scaled_lt_left_iff (by decide), number_take_drop s t]
    push_cast
    rw [add_mul, one_mul]
    have hcast : (number (s.drop t) : Int) < 10 ^ (s.length - t) := by exact_mod_cast hrest
    omega

/-- What follows is too little, in natural numbers. -/
theorem parts_lt_iff {n r z : Nat} {k : Int} :
    (parts rti : ℚ) * scaled 10 r k < (10 : ℚ) ^ (k + n - z) ↔ parts rti * r < 10 ^ (n - z) := by
  have hpos : (0 : ℚ) < 10 ^ k := zpow_pos (by norm_num) k
  have hone : ∀ i : Nat, (i : ℚ) < 10 ^ ((n : Int) - z) ↔ i < 10 ^ (n - z) := by
    intro i
    rcases Nat.le_total z n with hle | hle
    · rw [← Nat.cast_sub hle, zpow_natCast]
      exact_mod_cast Iff.rfl
    · rw [Nat.sub_eq_zero_of_le hle, pow_zero]
      obtain ⟨j, rfl⟩ := Nat.exists_eq_add_of_le hle
      have hexp : (n : Int) - (n + j : Nat) = -(j : Int) := by
        push_cast
        ring
      rw [hexp, zpow_neg, zpow_natCast]
      constructor
      · intro h
        have hle1 : ((10 : ℚ) ^ j)⁻¹ ≤ 1 := inv_le_one_of_one_le₀ (one_le_pow₀ (by norm_num))
        exact_mod_cast h.trans_le hle1
      · intro h
        obtain rfl : i = 0 := by omega
        positivity
  rw [← hone, add_sub_assoc, zpow_add₀ (by norm_num), scaled]
  push_cast
  rw [← mul_assoc, mul_comm ((10 : ℚ) ^ k), mul_lt_mul_iff_left₀ hpos]

/-- A call that returns `d` meets what is asked for if `d` does. -/
theorem rounded_iff {d : Decimal} (h : strRound tdigits rti a c = .ok (strNormal, d)) :
    Rounded tdigits rti t a c ↔
      RightDigits rti t a.value d.value ∧ (a.digits.length ≤ t → d.value = a.value) := by
  constructor
  · rintro ⟨d', hrun, hd'⟩
    rw [h] at hrun
    cases hrun
    exact hd'
  · intro hd
    exact ⟨d, h, hd⟩

/-- The same digits have the same value with the same sign and exponent only. -/
theorem scaled_signed_inj {i j : Nat} (hi : i = 0 ∨ i = 1) (hj : j = 0 ∨ j = 1) {n e k : Int}
    (hn : 0 < n) : scaled 10 (signed i n) e = scaled 10 (signed j n) k ↔ i = j ∧ e = k := by
  have hright : scaled 10 n e = scaled 10 n k ↔ e = k := scaled_right_inj (by decide) hn.ne'
  have hepos : 0 < scaled 10 n e := scaled_pos (by decide) hn
  have hkpos : 0 < scaled 10 n k := scaled_pos (by decide) hn
  rcases hi with rfl | rfl <;> rcases hj with rfl | rfl
  · rw [signed_zero_left, hright, and_iff_right rfl]
  · rw [signed_zero_left, signed_one, scaled_neg]
    refine iff_of_false (fun h => ?_) fun h => absurd h.1 (by decide)
    linarith
  · rw [signed_zero_left, signed_one, scaled_neg]
    refine iff_of_false (fun h => ?_) fun h => absurd h.1 (by decide)
    linarith
  · rw [signed_one, scaled_neg, scaled_neg, neg_inj, hright, and_iff_right rfl]

/-- No more digits than wanted: the sign and the exponent have to be there already. -/
theorem rounded_short_iff (ha : a.Text) (hc : c.sign = 0 ∨ c.sign = 1) (hrti : rti = 0 ∨ rti = 1)
    (ht : tdigits.toInt = t) (h : a.digits.length ≤ t) :
    Rounded tdigits rti t a c ↔ number a.digits = 0 ∨ c.sign = a.sign ∧ c.exp = a.exp := by
  have hroom : Significant 10 t a.value := by
    refine ⟨signed a.sign (number a.digits), a.exp.toInt, ?_, rfl⟩
    rw [natAbs_signed]
    exact (number_lt ha.digits).trans_le (Nat.pow_le_pow_right (by decide) h)
  have hvalue : Decimal.value { c with digits := a.digits } = a.value ↔
      number a.digits = 0 ∨ c.sign = a.sign ∧ c.exp = a.exp := by
    by_cases hzero : number a.digits = 0
    · simp [Decimal.value, hzero, signed]
    · rw [or_iff_right hzero]
      have hnumber : (0 : Int) < number a.digits := by omega
      rw [Decimal.value, Decimal.value, scaled_signed_inj hc ha.sign hnumber, BitVec.toInt_inj]
  rw [rounded_iff (strRoundAt_short ha hc hrti ht h), rightDigits_exact_iff hroom, hvalue]
  exact ⟨fun hboth => hboth.1, fun hright => ⟨hright, fun _ => hright⟩⟩

/-- More digits than wanted. -/
theorem rightDigits_take_iff (ha : a.Text) (hc : c.sign = 0 ∨ c.sign = 1) (hpos : t ≠ 0)
    (h : t < a.digits.length) (hne : number a.digits ≠ 0) (e : BitVec 64) :
    RightDigits rti t a.value (Decimal.value ⟨c.sign, e, a.digits.take t⟩) ↔
      c.sign = a.sign ∧ number (a.digits.take t) ≠ 0 ∧
        e.toInt = a.exp.toInt + (a.digits.length - t : Nat) ∧
        parts rti * number (a.digits.drop t) <
          10 ^ (a.digits.length - t - leadingZeros (a.digits.take t)) := by
  have hnumber : (0 : Int) < number a.digits := by omega
  by_cases hzero : number (a.digits.take t) = 0
  · refine iff_of_false ?_ fun hright => hright.2.1 hzero
    have hvalue : Decimal.value ⟨c.sign, e, a.digits.take t⟩ = 0 := by
      simp [Decimal.value, hzero, signed]
    rw [hvalue]
    exact not_rightDigits_zero hpos ha.sign hnumber
  · have hwanted : (0 : Int) < number (a.digits.take t) := by omega
    have hleads := leads_take ha.digits ha.length h (by omega) a.exp.toInt
    have hrest : scaled 10 (number a.digits) a.exp.toInt -
        scaled 10 (number (a.digits.take t)) (a.exp.toInt + (a.digits.length - t : Nat)) =
          scaled 10 (number (a.digits.drop t)) a.exp.toInt := by
      rw [← scaled_shift (by decide), ← scaled_sub, number_take_drop a.digits t]
      congr 1
      push_cast
      ring
    rw [Decimal.value, Decimal.value, rightDigits_signed_iff ha.sign hc hwanted hnumber,
      rightDigits_iff hleads, hrest, parts_lt_iff]
    exact and_congr_right fun _ => (and_iff_right hzero).symm

theorem number_drop_ge {s : List Byte} (h : t < s.length) :
    digitOf (s.getD t 0) * 10 ^ (s.length - t - 1) ≤ number (s.drop t) := by
  rw [List.drop_eq_getElem_cons h, number_cons, List.getD_eq_getElem _ _ h, List.length_drop,
    ← Nat.sub_sub]
  exact Nat.le_add_right _ _

theorem number_pos_of_digit {s : List Byte} (h : t < s.length) (hup : 5 ≤ digitOf (s.getD t 0)) :
    0 < number s := by
  have hsplit := number_take_drop s t
  have hdrop := number_drop_ge h
  have hpow : 0 < 10 ^ (s.length - t - 1) := Nat.pow_pos (by decide)
  have hmul : 5 * 10 ^ (s.length - t - 1) ≤ digitOf (s.getD t 0) * 10 ^ (s.length - t - 1) :=
    Nat.mul_le_mul_right _ hup
  omega

/-- Dropped digits that are half of the wanted ones' last place or more. -/
theorem parts_mul_drop_ge {s : List Byte} (h : t < s.length) (hup : 5 ≤ digitOf (s.getD t 0))
    (z : Nat) : 10 ^ (s.length - t - z) ≤ parts 0 * number (s.drop t) := by
  have hdrop := number_drop_ge h
  have hmul : 5 * 10 ^ (s.length - t - 1) ≤ digitOf (s.getD t 0) * 10 ^ (s.length - t - 1) :=
    Nat.mul_le_mul_right _ hup
  have hparts : parts 0 = 2 := rfl
  rw [hparts]
  calc 10 ^ (s.length - t - z) ≤ 10 ^ (s.length - t - 1 + 1) :=
        Nat.pow_le_pow_right (by decide) (by omega)
    _ = 10 ^ (s.length - t - 1) * 10 := pow_succ _ _
    _ ≤ 2 * number (s.drop t) := by omega

theorem rounded_down_iff (ha : a.Text) (hc : c.sign = 0 ∨ c.sign = 1) (hrti : rti = 0 ∨ rti = 1)
    (ht : tdigits.toInt = t) (hpos : t ≠ 0) (h : t < a.digits.length)
    (hdown : rti = 1 ∨ digitOf (a.digits.getD t 0) < 5) :
    Rounded tdigits rti t a c ↔
      number a.digits = 0 ∨ c.sign = a.sign ∧ number (a.digits.take t) ≠ 0 ∧
        (correct c.exp a.len tdigits).toInt = a.exp.toInt + (a.digits.length - t : Nat) ∧
        parts rti * number (a.digits.drop t) <
          10 ^ (a.digits.length - t - leadingZeros (a.digits.take t)) := by
  have hlong : ¬ a.digits.length ≤ t := Nat.not_le_of_lt h
  rw [rounded_iff (strRoundAt_long ha hc hrti ht h hdown),
    and_iff_left fun hshort => absurd hshort hlong]
  by_cases hzero : number a.digits = 0
  · have hsplit := number_take_drop a.digits t
    have hpow : 0 < 10 ^ (a.digits.length - t) := Nat.pow_pos (by decide)
    have hwanted : number (a.digits.take t) = 0 := by nlinarith
    rw [or_iff_left_of_imp fun _ => hzero]
    refine iff_of_true ?_ hzero
    simp [Decimal.value, hzero, hwanted, signed, rightDigits_exact_iff, significant_zero]
  · rw [or_iff_right hzero]
    exact rightDigits_take_iff ha hc hpos h hzero _

theorem not_rounded_up (ha : a.Text) (hc : c.sign = 0 ∨ c.sign = 1)
    (ht : tdigits.toInt = t) (hpos : t ≠ 0) (h : t < a.digits.length)
    (hup : 5 ≤ digitOf (a.digits.getD t 0)) : ¬ Rounded tdigits 0 t a c := by
  have hnumber : (0 : Int) < number a.digits := by exact_mod_cast number_pos_of_digit h hup
  rw [rounded_iff (strRoundAt_up ha hc ht (by omega) h hup)]
  rintro ⟨hright, _⟩
  have hnone : Decimal.value ⟨a.sign, correct c.exp a.len tdigits, []⟩ = 0 := by
    simp [Decimal.value, signed]
  rw [hnone] at hright
  exact not_rightDigits_zero hpos ha.sign hnumber hright

/-- **Exactly when the digits that come out are the right ones.** -/
theorem rounded_value_iff (ha : a.Text) (hrti : rti = 0 ∨ rti = 1) (ht : tdigits.toInt = t)
    (hpos : t ≠ 0) : Rounded tdigits rti t a c ↔ RoundHolds tdigits rti t a c := by
  unfold RoundHolds
  by_cases hc : c.sign = 0 ∨ c.sign = 1
  · rw [and_iff_right hc]
    by_cases hshort : a.digits.length ≤ t
    · rw [if_pos hshort]
      exact rounded_short_iff ha hc hrti ht hshort
    · have hlong : t < a.digits.length := Nat.lt_of_not_le hshort
      rw [if_neg hshort]
      by_cases hdown : rti = 1 ∨ digitOf (a.digits.getD t 0) < 5
      · exact rounded_down_iff ha hc hrti ht hpos hlong hdown
      · obtain rfl : rti = 0 := by omega
        have hup : 5 ≤ digitOf (a.digits.getD t 0) := by omega
        refine iff_of_false (not_rounded_up ha hc ht hpos hlong hup) ?_
        rintro (hzero | ⟨_, _, _, hlt⟩)
        · exact absurd hzero (number_pos_of_digit hlong hup).ne'
        · exact absurd hlt (Nat.not_lt_of_le (parts_mul_drop_ge hlong hup _))
  · refine iff_of_false ?_ fun h => hc h.1
    rintro ⟨d, hrun, _⟩
    rw [strRound, strRoundAt_invarg ha hc] at hrun
    cases hrun

/-- The exponent that comes out is the one that was there, or that with the dropped digits. -/
theorem strRound_exp (ha : a.Text) (hrti : rti = 0 ∨ rti = 1) (ht : tdigits.toInt = t)
    (hpos : t ≠ 0) : ∃ r, strRound tdigits rti a c = .ok r ∧
      r.2.exp = if (c.sign = 0 ∨ c.sign = 1) ∧ t < a.digits.length then correct c.exp a.len tdigits
        else c.exp := by
  by_cases hc : c.sign = 0 ∨ c.sign = 1
  · by_cases hlong : t < a.digits.length
    · rw [if_pos ⟨hc, hlong⟩]
      by_cases hdown : rti = 1 ∨ digitOf (a.digits.getD t 0) < 5
      · exact ⟨_, strRoundAt_long ha hc hrti ht hlong hdown, rfl⟩
      · obtain rfl : rti = 0 := by omega
        exact ⟨_, strRoundAt_up ha hc ht (by omega) hlong (by omega), rfl⟩
    · rw [if_neg fun h => hlong h.2]
      exact ⟨_, strRoundAt_short ha hc hrti ht (by omega), rfl⟩
  · rw [if_neg fun h => hc h.1]
    exact ⟨_, strRoundAt_invarg ha hc, rfl⟩

/-- Two exponents in the place of the result that give two others. -/
theorem not_exponentFromInputs (ha : a.Text) (hrti : rti = 0 ∨ rti = 1) (ht : tdigits.toInt = t)
    (hpos : t ≠ 0) : ¬ ExponentFromInputs tdigits rti a c := by
  rintro ⟨out, hout⟩
  have hexp : ∀ exp, (if (c.sign = 0 ∨ c.sign = 1) ∧ t < a.digits.length then
      correct exp a.len tdigits else exp) = out := by
    intro exp
    obtain ⟨r, hrun, hr⟩ := hout exp
    obtain ⟨r', hrun', hr'⟩ := @strRound_exp tdigits t rti a { c with exp } ha hrti ht hpos
    rw [hrun] at hrun'
    cases hrun'
    exact hr'.symm.trans hr
  have hsame := (hexp 0).trans (hexp (-1)).symm
  by_cases hlong : (c.sign = 0 ∨ c.sign = 1) ∧ t < a.digits.length
  · have hnone : (0 : BitVec 64).toInt ≤ 0 := by decide
    have hminus : (-1 : BitVec 64).toInt ≤ 0 := by decide
    rw [if_pos hlong, if_pos hlong, correct, correct, if_pos hnone, if_pos hminus,
      add_left_inj] at hsame
    exact absurd hsame (by decide)
  · rw [if_neg hlong, if_neg hlong] at hsame
    exact absurd hsame (by decide)

end Result

/-- **What `str$round` makes of a number**: the right digits exactly if `csign` and `cexp` were right
    before and nothing is to be added, and never an exponent of its own. -/
theorem strRound_right_iff (tdigits : BitVec 64) (rti t : Nat) (a c : Decimal) (ha : a.Text)
    (hrti : rti = 0 ∨ rti = 1) (ht : tdigits.toInt = t) (hpos : 1 ≤ t) :
    (Rounded tdigits rti t a c ↔ RoundHolds tdigits rti t a c) ∧
      ¬ ExponentFromInputs tdigits rti a c :=
  ⟨rounded_value_iff ha hrti ht (by omega), not_exponentFromInputs ha hrti ht (by omega)⟩

/-- 12345 to two digits, with the exponent 0 there before. -/
theorem truncates_twelve :
    Rounded 2 1 2 ⟨0, 0, [49, 50, 51, 52, 53]⟩ ⟨0, 0, []⟩ :=
  (strRound_right_iff 2 1 2 ⟨0, 0, [49, 50, 51, 52, 53]⟩ ⟨0, 0, []⟩ ⟨Or.inl rfl, by decide, by decide⟩
    (Or.inr rfl) (by decide) (by decide)).1.mpr ⟨by decide, by decide⟩

/-- 19 to one digit is to be 20, and nothing comes out. -/
theorem nineteen_to_one_digit :
    ¬ Rounded 1 0 1 ⟨0, 0, [49, 57]⟩ ⟨0, 0, []⟩ := by
  rintro ⟨d, hrun, hright, _⟩
  obtain rfl : (⟨0, 1, []⟩ : Decimal) = d := by
    have hvalue : strRound 1 0 ⟨0, 0, [49, 57]⟩ ⟨0, 0, []⟩ = .ok (strNormal, ⟨0, 1, []⟩) := by decide
    rw [hvalue] at hrun
    cases hrun
    rfl
  have hnot : ¬ RightDigits 0 1 (scaled 10 (signed 0 19) 0) 0 :=
    not_rightDigits_zero (by decide) (Or.inl rfl) (by decide)
  apply hnot
  simpa [Decimal.value, signed, number, digitOf] using hright

end FreeVMS.Rtl.Num
