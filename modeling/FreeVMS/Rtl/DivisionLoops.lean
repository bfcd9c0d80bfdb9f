import FreeVMS.Lib.LongDivision
import FreeVMS.Rtl.DecimalInteger

/-!
# The loops of the division

Repeated subtraction divides, as long as the divisor is not negative; the digits that are produced
are those of a division by hand. The outer loop is left when enough digits other than zero are
there, or when nothing is left of the dividend.
-/

namespace FreeVMS.Rtl.Num

open Lib.Digits Lib.LongDivision

/-! ### Repeated subtraction -/

/-- What repeated subtraction makes of the partial dividend. -/
structure Reduced (r r' : Remainder) : Prop where
  plain : Plain r'.quotientA
  trimmed : Trimmed r'.quotientA
  length : r'.quotientA.length ≤ r.quotientA.length
  number_eq : number r'.quotientA = number r.quotientA % number r.divisor
  divisor : Plain r'.divisor
  divisor_eq : number r'.divisor = number r.divisor
  digit : r'.digit = r.digit + BitVec.ofNat 8 (number r.quotientA / number r.divisor)
  status : r'.status = strNormal

theorem ncompareTrim_eq {s t : List Byte} (hs : Plain s) (ht : Plain t) :
    ncompareTrim s t = .ok (lzerotrim s, lzerotrim t, compare (number s) (number t)) := by
  obtain ⟨hs', hst, hsn, _⟩ := trim_plain hs
  obtain ⟨ht', htt, htn, _⟩ := trim_plain ht
  have hne : ¬ (s = [] ∨ t = []) := by
    rintro (h | h)
    · exact hs.nonempty h
    · exact ht.nonempty h
  rw [ncompareTrim, if_neg hne, compareText_eq_compare hs' ht' hst htt, hsn, htn]

theorem subtractLoop_stop {r : Remainder} (hq : Plain r.quotientA) (hd : Plain r.divisor)
    (h : number r.quotientA < number r.divisor) (bsign steps : Nat) :
    subtractLoop bsign (steps + 1) r = .ok (some { r with
      quotientA := lzerotrim r.quotientA
      divisor := lzerotrim r.divisor }) := by
  rw [subtractLoop, ncompareTrim_eq hq hd, Nat.compare_eq_lt.mpr h]
  rfl

/-- A partial dividend below the divisor, of whatever sign, is left as it is. -/
theorem subtractLoop_small {r : Remainder} (hq : Plain r.quotientA) (hd : Plain r.divisor)
    (h : number r.quotientA < number r.divisor) (hstatus : r.status = strNormal)
    (bsign steps : Nat) :
    ∃ r', subtractLoop bsign (steps + 1) r = .ok (some r') ∧ Reduced r r' := by
  obtain ⟨hq', hqt, hqn, hqlen⟩ := trim_plain hq
  obtain ⟨hd', _, hdn, _⟩ := trim_plain hd
  refine ⟨_, subtractLoop_stop hq hd h bsign steps, hq', hqt, hqlen, ?_, hd', hdn, ?_, hstatus⟩
  · rw [hqn, Nat.mod_eq_of_lt h]
  · rw [Nat.div_eq_of_lt h]
    exact (add_zero _).symm

theorem subtractLoop_go {r : Remainder} (hq : Plain r.quotientA) (hd : Plain r.divisor)
    (h : number r.divisor ≤ number r.quotientA) (bsign steps : Nat) :
    subtractLoop bsign (steps + 1) r = (do
      let e ← strSub ⟨0, 0, lzerotrim r.quotientA⟩ ⟨bsign, 0, lzerotrim r.divisor⟩ ⟨0, 0, []⟩
      subtractLoop bsign steps ⟨e.2.restored, lzerotrim r.divisor, r.digit + 1, e.1⟩) := by
  have horder : compare (number r.quotientA) (number r.divisor) ≠ .lt := by
    rw [ne_eq, Nat.compare_eq_lt]
    omega
  rw [subtractLoop, ncompareTrim_eq hq hd]
  simp only [bind, Except.bind, if_neg horder]
  rfl

/-- **The inner loop divides**: it is left behind as many subtractions as the quotient says, and the
    remainder is left. -/
theorem subtractLoop_spec {steps : Nat} : ∀ {r : Remainder}, Plain r.quotientA → Plain r.divisor →
    0 < number r.divisor → r.status = strNormal →
    (number r.quotientA / number r.divisor < steps →
      ∃ r', subtractLoop 0 steps r = .ok (some r') ∧ Reduced r r') ∧
    (steps ≤ number r.quotientA / number r.divisor → subtractLoop 0 steps r = .ok none) := by
  induction steps with
  | zero =>
    intro r _ _ _ _
    exact ⟨fun h => absurd h (Nat.not_lt_zero _), fun _ => rfl⟩
  | succ steps ih =>
    intro r hq hd hpos hstatus
    obtain ⟨hq', hqt, hqn, hqlen⟩ := trim_plain hq
    obtain ⟨hd', hdt, hdn, _⟩ := trim_plain hd
    by_cases hlt : number r.quotientA < number r.divisor
    · refine ⟨fun _ => subtractLoop_small hq hd hlt hstatus 0 steps, fun h => ?_⟩
      rw [Nat.div_eq_of_lt hlt] at h
      omega
    · have hle : number r.divisor ≤ number r.quotientA := Nat.le_of_not_lt hlt
      have horder : compareText (lzerotrim r.quotientA) (lzerotrim r.divisor) ≠ .lt := by
        rw [compareText_eq_compare hq' hd' hqt hdt, hqn, hdn, ne_eq, Nat.compare_eq_lt]
        exact hlt
      obtain ⟨d, hsub, hplain, hnumber, hlength⟩ :=
        strSub_plain hq' hd' ⟨0, 0, []⟩ horder (by rw [hqn, hdn]; exact hle)
      rw [hqn, hdn] at hnumber
      have hquot : number r.quotientA / number r.divisor =
          (number r.quotientA - number r.divisor) / number r.divisor + 1 :=
        Nat.div_eq_sub_div hpos hle
      obtain ⟨hdone, hnone⟩ := @ih ⟨d.restored, lzerotrim r.divisor, r.digit + 1, strNormal⟩ hplain
        hd' (by rw [hdn]; exact hpos) rfl
      rw [subtractLoop_go hq hd hle, hsub, hquot]
      simp only [hnumber, hdn] at hdone hnone
      refine ⟨fun h => ?_, fun h => hnone (by omega)⟩
      obtain ⟨r', hrun, hreduced⟩ := hdone (by omega)
      refine ⟨r', hrun, hreduced.plain, hreduced.trimmed, ?_, ?_, hreduced.divisor, ?_, ?_,
        hreduced.status⟩
      · exact hreduced.length.trans (hlength.trans hqlen)
      · have hvalue := hreduced.number_eq
        simp only [hnumber, hdn] at hvalue
        rw [hvalue, ← Nat.mod_eq_sub_mod hle]
      · rw [hreduced.divisor_eq, hdn]
      · have hdigit := hreduced.digit
        simp only [hnumber, hdn] at hdigit
        rw [hdigit, hquot, BitVec.ofNat_add, add_assoc, add_comm (1 : Byte)]
        rfl

/-- **With a negative divisor it is not left**: what is left grows with every round, until there is
    no room for it. -/
theorem subtractLoop_negative {steps : Nat} : ∀ {r r' : Remainder}, Plain r.quotientA →
    Plain r.divisor → number r.divisor ≤ number r.quotientA →
    subtractLoop 1 steps r ≠ .ok (some r') := by
  induction steps with
  | zero =>
    intro r r' _ _ _ h
    cases h
  | succ steps ih =>
    intro r r' hq hd hle h
    obtain ⟨hq', hqt, hqn, _⟩ := trim_plain hq
    obtain ⟨hd', hdt, hdn, _⟩ := trim_plain hd
    have horder : compareText (lzerotrim r.quotientA) (lzerotrim r.divisor) ≠ .lt := by
      rw [compareText_eq_compare hq' hd' hqt hdt, hqn, hdn, ne_eq, Nat.compare_eq_lt]
      omega
    rw [subtractLoop_go hq hd hle, bind_eq_ok] at h
    obtain ⟨e, hsub, hrun⟩ := h
    obtain ⟨hplain, hnumber⟩ := strSub_negative hq' hd' ⟨0, 0, []⟩ horder hsub
    refine ih hplain hd' ?_ hrun
    rw [hnumber, hdn]
    omega

/-! ### Bringing down -/

/-- The digit at `k`, and zero behind the end. -/
def nextDigit (s : List Byte) (k : Nat) : Nat := (s[k]?).elim 0 digitOf

/-- The first `k` digits, and zeros where there are fewer. -/
def brought (s : List Byte) (k : Nat) : Nat := number (s.take k) * 10 ^ (k - s.length)

theorem brought_succ (s : List Byte) (k : Nat) :
    brought s (k + 1) = 10 * brought s k + nextDigit s k := by
  unfold brought nextDigit
  by_cases h : k < s.length
  · rw [List.take_add_one, List.getElem?_eq_getElem h, Option.toList_some, number_concat,
      Nat.sub_eq_zero_of_le h, Nat.sub_eq_zero_of_le h.le, Option.elim_some]
    ring
  · have hle : s.length ≤ k := Nat.le_of_not_lt h
    rw [List.take_of_length_le hle, List.take_of_length_le (by omega), List.getElem?_eq_none hle,
      Nat.sub_add_comm hle, pow_succ, Option.elim_none]
    ring

theorem nextDigit_lt {s : List Byte} (h : Digits s) (k : Nat) : nextDigit s k < 10 := by
  unfold nextDigit
  cases hget : s[k]? with
  | none => decide
  | some c => exact digitOf_lt (h c (List.mem_of_getElem? hget))

/-- What `k` digits of the dividend make of the quotient. -/
def quotient (a b : Decimal) (k : Nat) : Nat := brought a.digits k / number b.digits

def remainder (a b : Decimal) (k : Nat) : Nat := brought a.digits k % number b.digits

/-- The partial dividend that the `k`-th digit of the quotient comes from. -/
def partDividend (a b : Decimal) (k : Nat) : Nat := 10 * remainder a b k + nextDigit a.digits k

section Digit

variable {a b : Decimal}

theorem quotient_succ (hb : 0 < number b.digits) (k : Nat) : quotient a b (k + 1) =
    10 * quotient a b k + partDividend a b k / number b.digits := by
  rw [quotient, brought_succ, div_step hb]
  rfl

theorem remainder_succ (k : Nat) :
    remainder a b (k + 1) = partDividend a b k % number b.digits := by
  rw [remainder, brought_succ, mod_step]
  rfl

theorem newDigit_lt (ha : Digits a.digits) (hb : 0 < number b.digits) (k : Nat) :
    partDividend a b k / number b.digits < 10 := digit_lt hb (nextDigit_lt ha k)

/-! ### The invariant -/

/-- The outer loop in front of digit `k`. -/
structure AtDigit (a b : Decimal) (first : Int) (k : Nat) (s : Division) : Prop where
  k_eq : s.k = k
  precision : s.precision + nonzeros 10 (quotient a b k) = first + k
  outlen : s.outlen = k
  length : s.result.length = max 1 k
  digits : Digits (s.result.take k)
  result : number (s.result.take k) = quotient a b k
  partDigits : Digits s.quotientA
  partLength : s.quotientA.length ≤ k
  part : number s.quotientA = remainder a b k
  rest : s.quotientB = a.digits.drop k
  divisor : Plain s.divisor
  divisor_eq : number s.divisor = number b.digits
  exp : s.exp = a.exp - b.exp - BitVec.ofNat 64 (k - a.digits.length)
  status : s.status = strNormal

/-- The digit has been brought down. -/
structure Opened (a b : Decimal) (first : Int) (k : Nat) (s : Division) : Prop where
  k_eq : s.k = k
  precision : s.precision + nonzeros 10 (quotient a b k) = first + k
  outlen : s.outlen = k + 1
  length : s.result.length = k + 1
  digits : Digits (s.result.take k)
  result : number (s.result.take k) = quotient a b k
  plain : Plain s.quotientA
  partLength : s.quotientA.length ≤ k + 1
  part : number s.quotientA = partDividend a b k
  rest : s.quotientB = a.digits.drop (k + 1)
  divisor : Plain s.divisor
  divisor_eq : number s.divisor = number b.digits
  exp : s.exp = a.exp - b.exp - BitVec.ofNat 64 (k + 1 - a.digits.length)
  status : s.status = strNormal

theorem append_digit {s : List Byte} {c : Byte} {k : Nat} (hs : Digits s) (hc : IsDigit c)
    (hlen : s.length ≤ k) (hk : k ≤ 65534) :
    Plain (append s [c]) ∧ (append s [c]).length ≤ k + 1 ∧
      number (append s [c]) = 10 * number s + digitOf c := by
  have happend : append s [c] = s ++ [c] := by
    apply List.take_of_length_le
    rw [List.length_append, List.length_singleton, maxCstr16]
    omega
  rw [happend, number_concat, List.length_append, List.length_singleton]
  refine ⟨⟨by simp, ?_, ?_⟩, by omega, by ring⟩
  · exact digits_append.mpr ⟨hs, digits_cons.mpr ⟨hc, digits_nil⟩⟩
  · rw [List.length_append, List.length_singleton]
    omega

theorem length_get1 (n : Nat) (s : List Byte) : (get1 n s).length = n := by
  rw [get1, List.length_take, List.length_append, List.length_replicate]
  omega

theorem take_get1 {n k : Nat} {s : List Byte} (hk : k ≤ n) (hs : k ≤ s.length) :
    (get1 n s).take k = s.take k := by
  rw [get1, List.take_take, Nat.min_eq_left hk, List.take_append_of_le_length hs]

theorem AtDigit.opened (ha : Digits a.digits) {first : Int} {k : Nat} {s : Division}
    (h : AtDigit a b first k s) (hk : k ≤ 65534) : Opened a b first k s.opened := by
  have hsize : ((s.k + 1) % 65536).toNat = k + 1 := by
    rw [h.k_eq]
    omega
  have htake : (get1 (k + 1) s.result).take k = s.result.take k := by
    apply take_get1 (Nat.le_succ k)
    rw [h.length]
    exact le_max_right 1 k
  have hrest := h.rest
  cases hget : a.digits[k]? with
  | some c =>
    have hlt : k < a.digits.length := (List.getElem?_eq_some_iff.mp hget).1
    have hc : IsDigit c := ha c (List.mem_of_getElem? hget)
    have hdrop : s.quotientB = c :: a.digits.drop (k + 1) := by
      rw [hrest, List.drop_eq_getElem_cons hlt, (List.getElem?_eq_some_iff.mp hget).2]
    obtain ⟨hplain, hlen, hnumber⟩ := append_digit h.partDigits hc h.partLength hk
    have hopened : s.opened = { s with
        result := get1 (k + 1) s.result
        outlen := s.outlen + 1
        quotientA := append s.quotientA [c]
        quotientB := a.digits.drop (k + 1) } := by
      unfold Division.opened Division.bringDown
      simp only [hdrop, hsize]
    rw [hopened]
    refine ⟨h.k_eq, h.precision, congrArg (· + 1) h.outlen, length_get1 _ _, ?_, ?_, hplain, hlen, ?_,
      rfl, h.divisor, h.divisor_eq, ?_, h.status⟩
    · simp only [htake]
      exact h.digits
    · simp only [htake]
      exact h.result
    · simp only [hnumber, h.part, partDividend, nextDigit, hget, Option.elim_some]
    · simp only [h.exp, Nat.sub_eq_zero_of_le hlt.le, Nat.sub_eq_zero_of_le (Nat.succ_le_of_lt hlt)]
  | none =>
    have hle : a.digits.length ≤ k := List.getElem?_eq_none_iff.mp hget
    have hdrop : s.quotientB = [] := by
      rw [hrest, List.drop_eq_nil_of_le hle]
    obtain ⟨hplain, hlen, hnumber⟩ := append_digit h.partDigits isDigit_zero h.partLength hk
    have hopened : s.opened = { s with
        result := get1 (k + 1) s.result
        outlen := s.outlen + 1
        quotientA := append s.quotientA [zero]
        exp := s.exp - 1 } := by
      unfold Division.opened Division.bringDown
      simp only [hdrop, hsize]
    rw [hopened]
    refine ⟨h.k_eq, h.precision, congrArg (· + 1) h.outlen, length_get1 _ _, ?_, ?_, hplain, hlen, ?_,
      ?_, h.divisor, h.divisor_eq, ?_, h.status⟩
    · simp only [htake]
      exact h.digits
    · simp only [htake]
      exact h.result
    · have hzero : digitOf zero = 0 := rfl
      simp only [hnumber, h.part, partDividend, nextDigit, hget, Option.elim_none, hzero]
    · simp only [hdrop]
      exact (List.drop_eq_nil_of_le (by omega)).symm
    · simp only [h.exp]
      rw [Nat.sub_add_comm hle, BitVec.ofNat_add, sub_sub]
      rfl

/-! ### One digit -/

/-- Behind a digit: what is in the result and in the exponent. -/
structure Produced (a b : Decimal) (k : Nat) (s : Division) : Prop where
  outlen : s.outlen = k
  length : s.result.length = k
  digits : Digits s.result
  result : number s.result = quotient a b k
  exp : s.exp = a.exp - b.exp - BitVec.ofNat 64 (k - a.digits.length)
  status : s.status = strNormal

/-- Nothing is left of the dividend. -/
def Spent (a b : Decimal) (k : Nat) : Prop := a.digits.length ≤ k ∧ remainder a b k = 0

instance (a b : Decimal) (k : Nat) : Decidable (Spent a b k) :=
  inferInstanceAs (Decidable (_ ∧ _))

theorem digit_eq (q : Nat) : zero + BitVec.ofNat 8 q = digitChr q := by
  rw [digitChr, BitVec.ofNat_add]
  rfl

theorem set_last {l : List Byte} {k : Nat} (h : l.length = k + 1) (c : Byte) :
    l.set k c = l.take k ++ [c] := by
  rw [List.set_eq_take_append_cons_drop, if_pos (by omega), List.drop_of_length_le (by omega)]

theorem Opened.produced (ha : Digits a.digits) (hb : 0 < number b.digits) {first : Int} {k : Nat}
    {t : Division} (h : Opened a b first k t) {r : Remainder}
    (hr : Reduced ⟨t.quotientA, t.divisor, zero, t.status⟩ r) (behind : Int → Byte)
    (quotientA : List Byte) (order : Ordering) :
    Produced a b (k + 1) (t.closed behind r quotientA order) := by
  have hlt := newDigit_lt ha hb k
  have hdigit : r.digit = digitChr (partDividend a b k / number b.digits) := by
    rw [hr.digit, ← digit_eq]
    simp only [h.part, h.divisor_eq]
  have hset : t.result.set t.k.toNat r.digit =
      t.result.take k ++ [digitChr (partDividend a b k / number b.digits)] := by
    rw [h.k_eq, Int.toNat_natCast, set_last h.length, hdigit]
  refine ⟨h.outlen, ?_, ?_, ?_, h.exp, hr.status⟩
  · simp only [Division.closed, List.length_set]
    exact h.length
  · simp only [Division.closed, hset]
    exact digits_append.mpr ⟨h.digits, digits_cons.mpr ⟨digitChr_isDigit hlt, digits_nil⟩⟩
  · simp only [Division.closed, hset]
    rw [number_concat, h.result, digitOf_digitChr hlt, quotient_succ hb, Nat.mul_comm]

theorem digitChr_eq_zero_iff {q : Nat} (hq : q < 10) : digitChr q = zero ↔ q = 0 := by
  constructor
  · intro h
    have hdigit := congrArg digitOf h
    rwa [digitOf_digitChr hq] at hdigit
  · rintro rfl
    rfl

/-- Unless nothing is left, the loop goes on with the next digit. -/
theorem Opened.next (ha : Digits a.digits) (hb : 0 < number b.digits) {first : Int} {k : Nat}
    {t : Division} (h : Opened a b first k t) {r : Remainder}
    (hr : Reduced ⟨t.quotientA, t.divisor, zero, t.status⟩ r) (behind : Int → Byte)
    {quotientA : List Byte} (hq : Plain quotientA) (hlen : quotientA.length ≤ k + 1)
    (hnumber : number quotientA = remainder a b (k + 1)) {order : Ordering}
    (hgo : ¬ (order = .eq ∧ t.quotientB = [])) :
    AtDigit a b first (k + 1) (t.closed behind r quotientA order) := by
  have hproduced := h.produced ha hb hr behind quotientA order
  have hlt := newDigit_lt ha hb k
  have hdigit : r.digit = digitChr (partDividend a b k / number b.digits) := by
    rw [hr.digit, ← digit_eq]
    simp only [h.part, h.divisor_eq]
  have hread : readDigit behind (t.result.set t.k.toNat r.digit) t.k = r.digit := by
    have hlength := h.length
    have hset : (t.result.set k r.digit).getD k 0 = r.digit := by
      rw [List.getD_eq_getElem?_getD, List.getElem?_set_self (by omega)]
      rfl
    rw [h.k_eq, Int.toNat_natCast, readDigit, if_pos, Int.toNat_natCast, hset]
    rw [List.length_set]
    omega
  have htake : (t.closed behind r quotientA order).result.take (k + 1) =
      (t.closed behind r quotientA order).result :=
    List.take_of_length_le hproduced.length.le
  refine ⟨?_, ?_, hproduced.outlen, ?_, ?_, ?_, hq.digits, hlen, hnumber, h.rest, hr.divisor, ?_,
    hproduced.exp, hproduced.status⟩
  · simp only [Division.closed, if_neg hgo, h.k_eq]
    push_cast
    ring
  · have hprecision := h.precision
    have hstep : nonzeros 10 (quotient a b (k + 1)) = nonzeros 10 (quotient a b k) +
        if partDividend a b k / number b.digits = 0 then 0 else 1 := by
      rw [quotient_succ hb, nonzeros_step (by decide) hlt]
    have hclosed : (t.closed behind r quotientA order).precision =
        if partDividend a b k / number b.digits = 0 then t.precision + 1 else t.precision := by
      simp only [Division.closed, if_neg hgo]
      rw [hread, hdigit]
      simp only [digitChr_eq_zero_iff hlt]
    rw [hclosed, hstep]
    by_cases hzero : partDividend a b k / number b.digits = 0
    · rw [if_pos hzero, if_pos hzero]
      push_cast
      omega
    · rw [if_neg hzero, if_neg hzero]
      push_cast
      omega
  · rw [hproduced.length]
    omega
  · rw [htake]
    exact hproduced.digits
  · rw [htake]
    exact hproduced.result
  · simp only [Division.closed]
    rw [hr.divisor_eq, ← h.divisor_eq]

/-- What the body of the outer loop does at digit `k`. -/
structure Stepped (a b : Decimal) (first : Int) (k : Nat) (s s' : Division) : Prop where
  produced : Produced a b (k + 1) s'
  next : ¬ Spent a b (k + 1) → AtDigit a b first (k + 1) s'
  spent : Spent a b (k + 1) → s'.k = (BitVec.ofInt 32 (s.precision + 1)).toInt + 1 ∧
    (s'.precision = s.precision ∨ s'.precision = s.precision + 1) ∧ s'.quotientA = [zero] ∧
    s'.quotientB = [] ∧ Plain s'.divisor ∧ number s'.divisor = number b.digits

theorem plain_zero : Plain [zero] := ⟨List.cons_ne_nil _ _, by decide, by decide⟩

theorem eq_zero_of_number {s : List Byte} (hs : Plain s) (htrim : Trimmed s) (h : number s = 0) :
    s = [zero] := by
  rcases htrim with hzero | hhead
  · exact hzero
  · have hle := pow_le_number hs hhead
    have hpos : 0 < 10 ^ (s.length - 1) := Nat.pow_pos (by decide)
    omega

theorem divideStep_of_inner (ha : Digits a.digits) (hb : 0 < number b.digits) {first : Int} {k : Nat}
    {s : Division} (h : AtDigit a b first k s) (hk : k ≤ 65534) (behind : Int → Byte)
    {bsign steps : Nat} {r : Remainder}
    (hinner : subtractLoop bsign steps
      ⟨s.opened.quotientA, s.opened.divisor, zero, s.opened.status⟩ = .ok (some r))
    (hr : Reduced ⟨s.opened.quotientA, s.opened.divisor, zero, s.opened.status⟩ r) :
    ∃ s', divideStep behind bsign steps s = .ok (some s') ∧ Stepped a b first k s s' := by
  have hopened := h.opened ha hk
  have hlength := hopened.length
  have hstart : startDigit s.opened.result s.opened.k = .ok () := by
    rw [startDigit, hopened.k_eq, if_neg, if_neg (by omega)]
    rw [← List.length_eq_zero_iff]
    omega
  have hcompare := ncompareTrim_eq hr.plain plain_zero
  obtain ⟨hq, hqt, hqn, hqlen⟩ := trim_plain hr.plain
  have hrem : number r.quotientA = remainder a b (k + 1) := by
    rw [hr.number_eq, remainder_succ]
    simp only [hopened.part, hopened.divisor_eq]
  have hpart : number (lzerotrim r.quotientA) = remainder a b (k + 1) := by rw [hqn, hrem]
  have hspent : (compare (number r.quotientA) (number [zero]) = .eq ∧ s.opened.quotientB = []) ↔
      Spent a b (k + 1) := by
    have hzero : number [zero] = 0 := rfl
    rw [Nat.compare_eq_eq, hzero, hrem, hopened.rest, List.drop_eq_nil_iff, Spent]
    exact and_comm
  refine ⟨s.opened.closed behind r (lzerotrim r.quotientA)
    (compare (number r.quotientA) (number [zero])), ?_, ?_, ?_, ?_⟩
  · rw [divideStep, hstart]
    simp only [bind, Except.bind, hinner, hcompare]
    rfl
  · exact hopened.produced ha hb hr behind _ _
  · intro hnot
    rw [← hspent] at hnot
    have hlen := hr.length
    have hpartLength := hopened.partLength
    exact hopened.next ha hb hr behind hq (hqlen.trans (hlen.trans hpartLength)) hpart hnot
  · intro hdone
    have hprecision : s.opened.precision = s.precision := by
      have hbefore := h.precision
      have hafter := hopened.precision
      omega
    refine ⟨?_, ?_, ?_, ?_, hr.divisor, ?_⟩
    · simp only [Division.closed, if_pos (hspent.mpr hdone), hprecision]
    · rw [← hprecision]
      exact Or.symm (ite_eq_or_eq _ _ _)
    · simp only [Division.closed]
      exact eq_zero_of_number hq hqt (by rw [hpart, hdone.2])
    · exact (hspent.mpr hdone).2
    · simp only [Division.closed]
      rw [hr.divisor_eq, ← hopened.divisor_eq]

/-- A digit is produced in at most ten rounds, and without any where the partial dividend is the
    smaller one, whatever the sign of the divisor. -/
theorem divideStep_spec (ha : Digits a.digits) (hb : 0 < number b.digits) {first : Int} {k : Nat}
    {s : Division} (h : AtDigit a b first k s) (hk : k ≤ 65534) (behind : Int → Byte)
    {bsign : Nat} (hsign : bsign = 0 ∨ partDividend a b k < number b.digits) (steps : Nat) :
    (∃ s', divideStep behind bsign steps s = .ok (some s') ∧ Stepped a b first k s s') ∨
      steps < 10 ∧ divideStep behind bsign steps s = .ok none := by
  have hopened := h.opened ha hk
  have hlength := hopened.length
  have hlt := newDigit_lt ha hb k
  have hinner : (∃ r, subtractLoop bsign steps
        ⟨s.opened.quotientA, s.opened.divisor, zero, s.opened.status⟩ = .ok (some r) ∧
          Reduced ⟨s.opened.quotientA, s.opened.divisor, zero, s.opened.status⟩ r) ∨
      steps < 10 ∧ subtractLoop bsign steps
        ⟨s.opened.quotientA, s.opened.divisor, zero, s.opened.status⟩ = .ok none := by
    rcases hsign with rfl | hsmall
    · obtain ⟨hdone, hnone⟩ := @subtractLoop_spec steps
        ⟨s.opened.quotientA, s.opened.divisor, zero, s.opened.status⟩ hopened.plain hopened.divisor
        (by simpa [hopened.divisor_eq] using hb) hopened.status
      simp only [hopened.part, hopened.divisor_eq] at hdone hnone
      by_cases hsteps : partDividend a b k / number b.digits < steps
      · exact Or.inl (hdone hsteps)
      · exact Or.inr ⟨by omega, hnone (by omega)⟩
    · cases steps with
      | zero => exact Or.inr ⟨by decide, rfl⟩
      | succ steps =>
        refine Or.inl (subtractLoop_small hopened.plain hopened.divisor ?_ hopened.status bsign steps)
        simp only [hopened.part, hopened.divisor_eq]
        exact hsmall
  rcases hinner with ⟨r, hrun, hr⟩ | ⟨hsteps, hnone⟩
  · exact Or.inl (divideStep_of_inner ha hb h hk behind hrun hr)
  · have hstart : startDigit s.opened.result s.opened.k = .ok () := by
      rw [startDigit, hopened.k_eq, if_neg, if_neg (by omega)]
      rw [← List.length_eq_zero_iff]
      omega
    refine Or.inr ⟨hsteps, ?_⟩
    rw [divideStep, hstart]
    simp only [bind, Except.bind, hnone]
    rfl

/-- A negative divisor that goes into the partial dividend. -/
theorem divideStep_negative (ha : Digits a.digits) {first : Int} {k : Nat}
    {s s' : Division} (h : AtDigit a b first k s) (hk : k ≤ 65534) (behind : Int → Byte)
    (hle : number b.digits ≤ partDividend a b k) (steps : Nat) :
    divideStep behind 1 steps s ≠ .ok (some s') := by
  have hopened := h.opened ha hk
  intro hrun
  rw [divideStep, bind_eq_ok] at hrun
  obtain ⟨_, _, hrun⟩ := hrun
  rw [bind_eq_ok] at hrun
  obtain ⟨r, hinner, hrun⟩ := hrun
  cases r with
  | none => cases hrun
  | some r =>
    refine subtractLoop_negative hopened.plain hopened.divisor ?_ hinner
    simp only [hopened.part, hopened.divisor_eq]
    exact hle

theorem opened_result (s : Division) :
    s.opened.result = get1 ((s.k + 1) % 65536).toNat s.result := by
  unfold Division.opened Division.bringDown
  cases s.quotientB with
  | nil => rfl
  | cons c quotientB => rfl

/-- There is no digit 65535: the length of the result wraps. -/
theorem divideStep_last {first : Int} {s : Division} (h : AtDigit a b first 65535 s)
    (behind : Int → Byte) (bsign steps : Nat) :
    divideStep behind bsign steps s = .error .nullPointer := by
  have hresult : s.opened.result = [] := by
    rw [opened_result, h.k_eq]
    rfl
  rw [divideStep, startDigit, if_pos hresult]
  rfl

end Digit

/-! ### The outer loop -/

theorem divideLoop_stop {behind : Int → Byte} {bsign steps : Nat} {s : Division}
    (h : s.precision < s.k) : divideLoop behind bsign (steps + 1) s = .ok (some s) := by
  rw [divideLoop, if_pos h]

theorem divideLoop_next {behind : Int → Byte} {bsign steps : Nat} {s s' : Division}
    (h : s.k ≤ s.precision) (hstep : divideStep behind bsign steps s = .ok (some s')) :
    divideLoop behind bsign (steps + 1) s = divideLoop behind bsign steps s' := by
  rw [divideLoop, if_neg (by omega), hstep]
  rfl

theorem divideLoop_cases {behind : Int → Byte} {bsign steps : Nat} {s t : Division}
    (h : divideLoop behind bsign (steps + 1) s = .ok (some t)) :
    s.precision < s.k ∧ t = s ∨ s.k ≤ s.precision ∧ ∃ s',
      divideStep behind bsign steps s = .ok (some s') ∧
        divideLoop behind bsign steps s' = .ok (some t) := by
  rw [divideLoop] at h
  by_cases hstop : s.precision < s.k
  · rw [if_pos hstop] at h
    cases h
    exact Or.inl ⟨hstop, rfl⟩
  · rw [if_neg hstop, bind_eq_ok] at h
    obtain ⟨r, hstep, h⟩ := h
    cases r with
    | none => cases h
    | some s' => exact Or.inr ⟨by omega, s', hstep, h⟩

end FreeVMS.Rtl.Num
