import FreeVMS.Rtl.DecimalCode
import Mathlib.Data.List.GetD

/-!
# The sum of two decimals

`str$add` of operands with one sign. The columns are added from the right, so that the sum of the
aligned digits comes out exactly, and the trims decide about the exponent.
-/

namespace FreeVMS.Rtl.Num

open Lib.Digits Lib.Scaled

/-! ### Digits in columns -/

theorem toInt_of_isDigit {c : Byte} (h : IsDigit c) : c.toInt = c.toNat := by
  unfold IsDigit at h
  rw [BitVec.toInt_eq_toNat_cond, if_pos (by omega)]

theorem offset_of_isDigit {c : Byte} (h : IsDigit c) : offset c = digitOf c := by
  have hint := toInt_of_isDigit h
  unfold IsDigit at h
  rw [offset, hint, digitOf]
  omega

theorem digitSum_of_isDigit {c : Byte} (h : IsDigit c) : digitSum c = digitOf c := by
  have hall : ∀ c, IsDigit c → digitSum c = digitOf c := by decide
  exact hall c h

theorem toChr_of_lt {n : Int} (h0 : 0 ≤ n) (h : n < 10) : toChr n = digitChr n.toNat := by
  obtain ⟨d, rfl⟩ := Int.eq_ofNat_of_zero_le h0
  rw [toChr, digitChr, Int.toNat_natCast, Nat.add_comm]
  rfl

theorem isDigit_toChr {n : Int} (h0 : 0 ≤ n) (h : n < 10) : IsDigit (toChr n) := by
  rw [toChr_of_lt h0 h]
  exact digitChr_isDigit (by omega)

theorem digitSum_toChr {n : Int} (h0 : 0 ≤ n) (h : n < 10) : digitSum (toChr n) = n := by
  rw [digitSum_of_isDigit (isDigit_toChr h0 h), toChr_of_lt h0 h, digitOf_digitChr (by omega)]
  omega

/-- The number of columns, the rightmost first. -/
def total (cs : List Byte) : Int := valueOf 10 digitSum cs

@[simp] theorem total_nil : total [] = 0 := rfl

@[simp] theorem total_cons (c : Byte) (cs : List Byte) : total (c :: cs) = digitSum c + 10 * total cs :=
  rfl

theorem total_append (cs ds : List Byte) : total (cs ++ ds) = total cs + 10 ^ cs.length * total ds :=
  valueOf_append 10 digitSum cs ds

theorem total_reverse {s : List Byte} (h : Digits s) : total s.reverse = number s := by
  induction s using List.reverseRecOn with
  | nil => rfl
  | append_singleton s c ih =>
    rw [digits_append] at h
    rw [List.reverse_append, List.reverse_singleton, List.singleton_append, total_cons, ih h.1,
      number_concat, digitSum_of_isDigit (h.2 c (List.mem_singleton_self c))]
    push_cast
    ring

theorem digits_reverse {s : List Byte} : Digits s.reverse ↔ Digits s := by
  simp [Digits]

theorem number_reverse {cs : List Byte} (h : Digits cs) : (number cs.reverse : Int) = total cs := by
  rw [← total_reverse (digits_reverse.mpr h), List.reverse_reverse]

theorem columns_eq_reverse {a : Cells} {l : List Byte} {n : Nat} (hn : n = l.length)
    (h : ∀ i, i < n → a i = l.getD i 0) : columns a n = l.reverse := by
  subst hn
  induction l using List.reverseRecOn with
  | nil => rfl
  | append_singleton l c ih =>
    have hlast : a l.length = c := by
      rw [h l.length (by simp)]
      simp
    have hinit : columns a l.length = l.reverse := by
      apply ih
      intro i hi
      rw [h i (by simp; omega)]
      simp [List.getElem?_append_left hi]
    rw [List.length_append, List.length_singleton, columns, hlast, hinit, List.reverse_append]
    rfl

theorem columns_load (s : List Byte) : columns (load s) s.length = s.reverse :=
  columns_eq_reverse rfl fun _ _ => rfl

/-! ### The loop -/

theorem total_head_tail {xs : List Byte} (h : Digits xs) :
    total xs = xs.head?.elim 0 offset + 10 * total xs.tail := by
  cases xs with
  | nil => rfl
  | cons x xs =>
    have hx := (digits_cons.mp h).1
    rw [total_cons, digitSum_of_isDigit hx, List.head?_cons, Option.elim_some, offset_of_isDigit hx,
      List.tail_cons]

theorem head_range {xs : List Byte} (h : Digits xs) :
    0 ≤ xs.head?.elim 0 offset ∧ xs.head?.elim 0 offset ≤ 9 := by
  cases xs with
  | nil => simp
  | cons x xs =>
    have hx := (digits_cons.mp h).1
    have hlt := digitOf_lt hx
    rw [List.head?_cons, Option.elim_some, offset_of_isDigit hx]
    omega

theorem digits_tail {xs : List Byte} (h : Digits xs) : Digits xs.tail :=
  fun c hc => h c (List.mem_of_mem_tail hc)

theorem addLoop_spec (k : Nat) : ∀ {carry : Int} {xs ys : List Byte}, Digits xs → Digits ys →
    xs.length ≤ k → ys.length ≤ k → (carry = 0 ∨ carry = 1) →
    Digits (addLoop carry xs ys k).1 ∧ (addLoop carry xs ys k).1.length = k ∧
      ((addLoop carry xs ys k).2 = 0 ∨ (addLoop carry xs ys k).2 = 1) ∧
      total (addLoop carry xs ys k).1 + 10 ^ k * (addLoop carry xs ys k).2 =
        total xs + total ys + carry := by
  induction k with
  | zero =>
    intro carry xs ys _ _ hxk hyk hcarry
    rw [List.length_eq_zero_iff.mp (Nat.le_zero.mp hxk),
      List.length_eq_zero_iff.mp (Nat.le_zero.mp hyk)]
    exact ⟨digits_nil, rfl, hcarry, by simp [addLoop]⟩
  | succ k ih =>
    intro carry xs ys hx hy hxk hyk hcarry
    have hxr := head_range hx
    have hyr := head_range hy
    rw [total_head_tail hx, total_head_tail hy]
    unfold addLoop
    generalize xs.head?.elim 0 offset = x at hxr ⊢
    generalize ys.head?.elim 0 offset = y at hyr ⊢
    simp only
    have hnext : (if 9 < x + y + carry then (1 : Int) else 0) = 0 ∨
        (if 9 < x + y + carry then (1 : Int) else 0) = 1 := by
      split
      · exact Or.inr rfl
      · exact Or.inl rfl
    have hcolumn : 0 ≤ (if 9 < x + y + carry then x + y + carry - 10 else x + y + carry) ∧
        (if 9 < x + y + carry then x + y + carry - 10 else x + y + carry) < 10 ∧
        (if 9 < x + y + carry then x + y + carry - 10 else x + y + carry) +
          10 * (if 9 < x + y + carry then (1 : Int) else 0) = x + y + carry := by
      split <;> omega
    obtain ⟨hdigits, hlen, hout, hvalue⟩ := ih (digits_tail hx) (digits_tail hy)
      (by rw [List.length_tail]; omega) (by rw [List.length_tail]; omega) hnext
    generalize (if 9 < x + y + carry then (1 : Int) else 0) = next at hcolumn hvalue hdigits hlen hout ⊢
    obtain ⟨h0, h9, hsum⟩ := hcolumn
    refine ⟨digits_cons.mpr ⟨isDigit_toChr h0 h9, hdigits⟩, ?_, hout, ?_⟩
    · rw [List.length_cons, hlen]
    · rw [total_cons, digitSum_toChr h0 h9, pow_succ]
      linear_combination 10 * hvalue + hsum

/-! ### Aligned operands -/

/-- A number that the routines are meant for. -/
structure Decimal.Operand (d : Decimal) : Prop where
  sign : d.sign = 1 ∨ d.sign = 0
  nonempty : d.digits ≠ []
  digits : Digits d.digits

/-- The smaller exponent. -/
def lowExp (a b : Decimal) : Int := min a.exp.toInt b.exp.toInt

/-- How many zeros a number is to get behind its digits. -/
def Decimal.gap (d : Decimal) (low : Int) : Nat := (d.exp.toInt - low).toNat

/-- The digits with these zeros, as a number. -/
def Decimal.aligned (d : Decimal) (low : Int) : Int := number d.digits * 10 ^ d.gap low

/-- Aligned to the smaller exponent the operands have at most 65534 digits. -/
def Aligned (a b : Decimal) : Prop :=
  a.digits.length + a.gap (lowExp a b) ≤ 65534 ∧ b.digits.length + b.gap (lowExp a b) ≤ 65534

theorem value_eq_aligned {d : Decimal} {low : Int} (h : low ≤ d.exp.toInt) :
    d.value = scaled 10 (signed d.sign (d.aligned low)) low := by
  have hgap : d.exp.toInt = low + d.gap low := by
    unfold Decimal.gap
    omega
  rw [Decimal.value, hgap, ← scaled_shift (by decide)]
  congr 1
  simp only [signed, Decimal.aligned]
  push_cast
  ring

theorem slt_iff_toInt {x y : BitVec 64} : x.slt y = true ↔ x.toInt < y.toInt := by
  simp [BitVec.slt]

theorem toInt_minExp (a b : Decimal) : (minExp a b).toInt = lowExp a b := by
  unfold minExp lowExp
  split
  · next h =>
    rw [slt_iff_toInt] at h
    exact (min_eq_right h.le).symm
  · next h =>
    rw [slt_iff_toInt] at h
    exact (min_eq_left (by omega)).symm

theorem lowExp_le_left (a b : Decimal) : lowExp a b ≤ a.exp.toInt := min_le_left _ _

theorem lowExp_le_right (a b : Decimal) : lowExp a b ≤ b.exp.toInt := min_le_right _ _

/-- An exponent behind the smaller one. -/
theorem exp_eq_low {d : Decimal} {min : BitVec 64} (h : min.toInt ≤ d.exp.toInt) :
    d.exp = min + BitVec.ofNat 64 (d.gap min.toInt) := by
  have hgap : d.exp.toInt = min.toInt + d.gap min.toInt := by
    unfold Decimal.gap
    omega
  have hback : d.exp = BitVec.ofInt 64 d.exp.toInt := BitVec.ofInt_toInt.symm
  rw [hback, hgap, BitVec.ofInt_add, BitVec.ofInt_toInt]
  rfl

theorem total_padded {s : List Byte} (h : Digits s) (gap : Nat) :
    total (List.replicate gap zero ++ s.reverse) = number s * 10 ^ gap := by
  have hzeros : total (List.replicate gap zero) = 0 := by
    rw [← List.reverse_replicate, total_reverse (digits_zeros gap), number_zeros]
    rfl
  rw [total_append, hzeros, total_reverse h, List.length_replicate]
  ring

theorem digits_padded_columns {s : List Byte} (h : Digits s) (gap : Nat) :
    Digits (List.replicate gap zero ++ s.reverse) :=
  digits_append.mpr ⟨digits_zeros gap, digits_reverse.mpr h⟩

theorem toInt_ofNat_small {n : Nat} (h : n < 2 ^ 63) : (BitVec.ofNat 64 n).toInt = n := by
  have hcond := BitVec.toInt_eq_toNat_cond (BitVec.ofNat 64 n)
  rw [BitVec.toNat_ofNat] at hcond
  omega

theorem setWidth_len {d : Decimal} (h : d.digits.length ≤ 65534) :
    d.len.setWidth 64 = BitVec.ofNat 64 d.digits.length := by
  apply BitVec.eq_of_toNat_eq
  simp only [Decimal.len, BitVec.toNat_setWidth, BitVec.toNat_ofNat]
  omega

/-- The padded operand: its columns are zeros and then its digits from the right. -/
theorem padSum_spec {d : Decimal} {larger : Bool} {max min : BitVec 64}
    (hlow : min.toInt ≤ d.exp.toInt) (hmax : larger = true → max = d.exp)
    (hzero : larger = false → d.gap min.toInt = 0)
    (hshort : d.digits.length + d.gap min.toInt ≤ 65534) :
    ∃ x : Cells × BitVec 16, padSum d larger max min = .ok x ∧
      x.2.toNat = d.digits.length + d.gap min.toInt ∧
      columns x.1 x.2.toNat = List.replicate (d.gap min.toInt) zero ++ d.digits.reverse := by
  have hlen : d.len.toNat = d.digits.length := Decimal.toNat_len (by omega)
  cases larger with
  | false =>
    refine ⟨(load d.digits, d.len), rfl, ?_, ?_⟩
    · rw [hlen, hzero rfl, Nat.add_zero]
    · rw [hlen, hzero rfl, columns_load]
      rfl
  | true =>
    have hdiff : max - min = BitVec.ofNat 64 (d.gap min.toInt) := by
      rw [hmax rfl, exp_eq_low hlow, BitVec.add_comm, BitVec.add_sub_cancel]
    have hstop : (d.len.setWidth 64 + max - min).toInt =
        ((d.digits.length + d.gap min.toInt : Nat) : Int) := by
      rw [setWidth_len (by omega), add_sub_assoc, hdiff, ← BitVec.ofNat_add,
        toInt_ofNat_small (by omega)]
    have htotal : (d.len + (max - min).setWidth 16).toNat =
        d.digits.length + d.gap min.toInt := by
      rw [hdiff, BitVec.toNat_add, hlen, BitVec.toNat_setWidth, BitVec.toNat_ofNat]
      omega
    unfold padSum
    rw [if_pos rfl, hstop, if_neg (by rw [maxstr]; omega)]
    refine ⟨_, rfl, htotal, ?_⟩
    simp only [htotal, hlen]
    have hlength : (d.digits ++ List.replicate (d.gap min.toInt) zero).length =
        d.digits.length + d.gap min.toInt := by
      rw [List.length_append, List.length_replicate]
    have hrev : List.replicate (d.gap min.toInt) zero ++ d.digits.reverse =
        (d.digits ++ List.replicate (d.gap min.toInt) zero).reverse := by
      rw [List.reverse_append, List.reverse_replicate]
    rw [hrev]
    apply columns_eq_reverse hlength.symm
    intro i hi
    by_cases h : i < d.digits.length
    · rw [if_neg (by omega), List.getD_append _ _ _ _ h]
      rfl
    · rw [if_pos (by omega), List.getD_append_right _ _ _ _ (Nat.le_of_not_lt h),
        List.getD_replicate _ (by omega)]

/-! ### `str$add` of one sign -/

/-- The ends of aligned operands are not further apart than the routine takes. -/
theorem sizes_overlap {x y : BitVec 64} {m n : Nat} {low : BitVec 64}
    (hx : x = low + BitVec.ofNat 64 m) (hy : y = low + BitVec.ofNat 64 n) (hm : m ≤ 65535)
    (hn : n ≤ 65535) :
    BitVec.slt 65535 ((if y.slt x then x else y) - (if y.slt x then y else x)) = false := by
  have hsub : ∀ i j : Nat, i ≤ 65535 → j ≤ 65535 →
      BitVec.slt 65535 ((low + BitVec.ofNat 64 i) - (low + BitVec.ofNat 64 j)) = false := by
    intro i j hi hj
    have hdiff : (low + BitVec.ofNat 64 i) - (low + BitVec.ofNat 64 j) =
        BitVec.ofNat 64 i - BitVec.ofNat 64 j := add_sub_add_left_eq_sub _ _ _
    rw [hdiff, BitVec.slt_eq_decide, decide_eq_false_iff_not, Int.not_lt, BitVec.toInt_sub,
      toInt_ofNat_small (by omega), toInt_ofNat_small (by omega), Int.bmod_def]
    have hbound : (65535 : BitVec 64).toInt = 65535 := by decide
    omega
  rw [hx, hy]
  split
  · exact hsub m n hm hn
  · exact hsub n m hn hm

theorem size_eq {d : Decimal} {low : BitVec 64} (hlow : low.toInt ≤ d.exp.toInt)
    (hlen : d.digits.length + d.gap low.toInt ≤ 65534) :
    d.exp + d.len.setWidth 64 = low + BitVec.ofNat 64 (d.gap low.toInt + d.digits.length) := by
  rw [setWidth_len (by omega), exp_eq_low hlow, BitVec.add_assoc, ← BitVec.ofNat_add]

theorem fill_short {cs : List Byte} (h : cs.length ≤ 65535) :
    fill (BitVec.ofNat 16 cs.length) cs = .ok cs := by
  have hlen : (BitVec.ofNat 16 cs.length).toNat = cs.length := by
    rw [BitVec.toNat_ofNat]
    omega
  rw [fill, hlen, if_pos (Nat.le_refl _)]

/-- The columns of a sum with the last carry in front of them. -/
def carried (sums : List Byte × Int) : List Byte :=
  if sums.2 = 1 then toChr sums.2 :: sums.1.reverse else sums.1.reverse

theorem carried_spec {sums : List Byte × Int} (hne : sums.1 ≠ []) (hdigits : Digits sums.1)
    (hcarry : sums.2 = 0 ∨ sums.2 = 1) : Digits (carried sums) ∧ carried sums ≠ [] ∧
      (carried sums).length ≤ sums.1.length + 1 ∧
      (number (carried sums) : Int) = total sums.1 + 10 ^ sums.1.length * sums.2 := by
  obtain ⟨cs, carry⟩ := sums
  unfold carried
  simp only at hne hdigits hcarry ⊢
  rcases hcarry with rfl | rfl
  · rw [if_neg (by decide)]
    refine ⟨digits_reverse.mpr hdigits, by simpa using hne, ?_, ?_⟩
    · rw [List.length_reverse]
      omega
    · rw [number_reverse hdigits]
      ring
  · rw [if_pos rfl]
    refine ⟨?_, List.cons_ne_nil _ _, ?_, ?_⟩
    · exact digits_cons.mpr ⟨by decide, digits_reverse.mpr hdigits⟩
    · rw [List.length_cons, List.length_reverse]
    · have hone : number [toChr 1] = 1 := by decide
      rw [← List.singleton_append, number_append, hone, List.length_reverse]
      push_cast
      rw [number_reverse hdigits]
      ring

/-- The end of `str$add` is the trims, if the columns fit. -/
theorem addResult_eq {sums : List Byte × Int} (sign : Nat) (exp : BitVec 64)
    (hlen : (carried sums).length ≤ 65535) :
    addResult sign exp sums = (trim sign exp (carried sums)).map fun d => (strNormal, d) := by
  have htake : (carried sums).take maxUint16 = carried sums :=
    List.take_of_length_le (by rw [maxUint16]; omega)
  have hcarried : (if sums.2 = 1 then toChr sums.2 :: sums.1.reverse else sums.1.reverse) =
      carried sums := rfl
  simp only [addResult]
  rw [hcarried, htake, fill_short hlen, if_neg (by rw [maxUint16]; omega)]
  simp only [bind, Except.bind]
  cases trim sign exp (carried sums) with
  | error e => rfl
  | ok d => rfl

/-- Sums of columns as they come out of the loop become the number that they are. -/
theorem addResult_spec {sums : List Byte × Int} {n : Int} (sign : Nat) (exp : BitVec 64)
    (hne : sums.1 ≠ []) (hlen : sums.1.length ≤ 65534) (hdigits : Digits sums.1)
    (hcarry : sums.2 = 0 ∨ sums.2 = 1) (hn : total sums.1 + 10 ^ sums.1.length * sums.2 = n) :
    ∃ d, addResult sign exp sums = .ok (strNormal, d) ∧ d.sign = sign ∧ d.Canonical ∧
      d.Denotes (signed sign n) exp.toInt := by
  obtain ⟨hcdigits, hcne, hclen, hcn⟩ := carried_spec hne hdigits hcarry
  obtain ⟨d, htrim, hsign, hcanonical, hvalue⟩ := trim_denotes sign
    (BitVec.ofInt_toInt (x := exp)).symm hcne hcdigits (by omega)
  rw [hcn, hn] at hvalue
  refine ⟨d, ?_, hsign, hcanonical, hvalue⟩
  rw [addResult_eq sign exp (by omega), htrim]
  rfl

theorem gap_larger {a b : Decimal} (h : b.exp.slt a.exp = false) : a.gap (lowExp a b) = 0 := by
  have hle : a.exp.toInt ≤ b.exp.toInt := by
    by_contra hlt
    rw [slt_iff_toInt.mpr (by omega)] at h
    cases h
  unfold Decimal.gap lowExp
  omega

theorem lowExp_comm (a b : Decimal) : lowExp a b = lowExp b a := min_comm _ _

theorem maxExp_eq {a b : Decimal} :
    (b.exp.slt a.exp = true → maxExp a b = a.exp) ∧ (a.exp.slt b.exp = true → maxExp a b = b.exp) := by
  constructor
  · intro h
    rw [maxExp, if_pos h]
  · intro h
    rw [slt_iff_toInt] at h
    rw [maxExp, if_neg]
    rw [slt_iff_toInt]
    omega

theorem addEqual_spec {a b c : Decimal} (ha : a.Operand) (hb : b.Operand) (hsign : a.sign = b.sign)
    (haligned : Aligned a b) (hc : c.digits = []) :
    ∃ d, addEqual a b c = .ok (strNormal, d) ∧ d.sign = a.sign ∧ d.Canonical ∧
      d.Denotes (signed a.sign (a.aligned (lowExp a b) + b.aligned (lowExp a b)))
        (lowExp a b) := by
  have hmin := toInt_minExp a b
  have hla : (minExp a b).toInt ≤ a.exp.toInt := by
    rw [hmin]
    exact lowExp_le_left a b
  have hlb : (minExp a b).toInt ≤ b.exp.toInt := by
    rw [hmin]
    exact lowExp_le_right a b
  obtain ⟨hwa, hwb⟩ := haligned
  rw [← hmin] at hwa hwb ⊢
  have hvalid : signsValid a b = true := by
    simp only [signsValid, decide_eq_true_eq]
    exact ⟨ha.sign, hb.sign⟩
  have hcsign : (if a.sign = 1 ∧ b.sign = 1 then 1 else 0) = a.sign := by
    rcases ha.sign with h | h <;> simp [← hsign, h]
  obtain ⟨x, hx, hxlen, hxcols⟩ := padSum_spec hla maxExp_eq.1
    (fun h => hmin ▸ gap_larger h) hwa
  obtain ⟨y, hy, hylen, hycols⟩ := padSum_spec hlb maxExp_eq.2
    (fun h => by rw [hmin, lowExp_comm]; exact gap_larger h) hwb
  have hxdigits := digits_padded_columns ha.digits (a.gap (minExp a b).toInt)
  have hydigits := digits_padded_columns hb.digits (b.gap (minExp a b).toInt)
  have hxcount : (columns x.1 x.2.toNat).length = x.2.toNat := by
    rw [hxcols, hxlen, List.length_append, List.length_replicate, List.length_reverse]
    omega
  have hycount : (columns y.1 y.2.toNat).length = y.2.toNat := by
    rw [hycols, hylen, List.length_append, List.length_replicate, List.length_reverse]
    omega
  obtain ⟨hdigits, hlen, hcarry, hvalue⟩ := addLoop_spec (max x.2.toNat y.2.toNat)
    (hxcols ▸ hxdigits) (hycols ▸ hydigits) (by omega) (by omega) (Or.inl rfl)
  have hpos : 0 < a.digits.length := List.length_pos_iff.mpr ha.nonempty
  obtain ⟨d, hresult, hdsign, hcanonical, hfits⟩ := addResult_spec
    (n := a.aligned (minExp a b).toInt + b.aligned (minExp a b).toInt) a.sign (minExp a b)
    (by rw [← List.length_pos_iff, hlen]; omega) (by omega) hdigits hcarry (by
      rw [hlen, hvalue, hxcols, hycols, total_padded ha.digits, total_padded hb.digits]
      simp only [Decimal.aligned]
      ring)
  refine ⟨d, ?_, hdsign, hcanonical, hfits⟩
  simp only [addEqual, hc, hvalid, hcsign, ne_eq, not_true_eq_false, if_false]
  rw [sizes_overlap (size_eq hla hwa) (size_eq hlb hwb) (by omega) (by omega)]
  simp only [Bool.false_eq_true, if_false, hx, hy, bind, Except.bind, hresult]

theorem value_add {a b : Decimal} (hsign : a.sign = b.sign) : a.value + b.value =
    scaled 10 (signed a.sign (a.aligned (lowExp a b) + b.aligned (lowExp a b))) (lowExp a b) := by
  rw [value_eq_aligned (lowExp_le_left a b), value_eq_aligned (lowExp_le_right a b), ← scaled_add,
    hsign]
  simp only [signed, mul_add]

theorem natAbs_signed (sign : Nat) (n : Int) : (signed sign n).natAbs = n.natAbs := by
  rcases neg_one_pow_eq_or Int sign with h | h <;> simp [signed, h]

theorem natAbs_aligned_lt {d : Decimal} (hd : d.Operand) (low : Int) :
    (d.aligned low).natAbs < 10 ^ (d.digits.length + d.gap low) := by
  have hnat : (d.aligned low).natAbs = number d.digits * 10 ^ d.gap low := by
    rw [Decimal.aligned, Int.natAbs_mul, Int.natAbs_pow]
    rfl
  rw [hnat, pow_add]
  exact Nat.mul_lt_mul_of_pos_right (number_lt hd.digits) (Nat.pow_pos (by decide))

theorem natAbs_combined_lt {x y : Int} {m n : Nat} (i j : Nat) (hx : x.natAbs < 10 ^ m)
    (hy : y.natAbs < 10 ^ n) : (signed i x + signed j y).natAbs < 10 ^ (m + n + 1) := by
  have hle := Int.natAbs_add_le (signed i x) (signed j y)
  rw [natAbs_signed, natAbs_signed] at hle
  have hm : 10 ^ m ≤ 10 ^ (m + n) := Nat.pow_le_pow_right (by decide) (by omega)
  have hn : 10 ^ n ≤ 10 ^ (m + n) := Nat.pow_le_pow_right (by decide) (by omega)
  rw [pow_succ]
  omega

/-- **`str$add` of one sign** returns the sum in canonical digits, and its value is the sum's if
    and only if the exponent of the sum in canonical form fits. -/
theorem strAdd_equal_signs (a b c : Decimal) (ha : a.Operand) (hb : b.Operand)
    (hsign : a.sign = b.sign) (haligned : Aligned a b) (hc : c.digits = []) :
    ∃ d, strAdd a b c = .ok (strNormal, d) ∧ d.Canonical ∧
      (d.value = a.value + b.value ↔ Fits (a.value + b.value)) := by
  obtain ⟨d, hadd, _, hcanonical, hvalue⟩ := addEqual_spec ha hb hsign haligned hc
  refine ⟨d, ?_, hcanonical, ?_⟩
  · rw [strAdd, if_neg (by omega), hadd]
  · obtain ⟨hwa, hwb⟩ := haligned
    have hbound := natAbs_combined_lt a.sign a.sign (natAbs_aligned_lt ha (lowExp a b))
      (natAbs_aligned_lt hb (lowExp a b))
    rw [signed, signed, ← mul_add] at hbound
    rw [value_add hsign]
    exact hvalue.exact (by omega) hbound

/-- 50 and 95: both trims have work to do, and the columns a last carry. -/
theorem fifty_and_ninety_five :
    ∃ d, strAdd ⟨1, 1, [53]⟩ ⟨1, 0, [57, 53]⟩ ⟨0, 0, []⟩ = .ok (strNormal, d) ∧ d.Canonical ∧
      (d.value = Decimal.value ⟨1, 1, [53]⟩ + Decimal.value ⟨1, 0, [57, 53]⟩ ↔
        Fits (Decimal.value ⟨1, 1, [53]⟩ + Decimal.value ⟨1, 0, [57, 53]⟩)) :=
  strAdd_equal_signs ⟨1, 1, [53]⟩ ⟨1, 0, [57, 53]⟩ ⟨0, 0, []⟩
    ⟨Or.inl rfl, List.cons_ne_nil _ _, by decide⟩ ⟨Or.inl rfl, List.cons_ne_nil _ _, by decide⟩ rfl
    (by unfold Aligned; decide) rfl

/-- `5` with the largest exponent there is. -/
def largestFive : Decimal := ⟨0, BitVec.intMax 64, [53]⟩

/-- The exponent of its double wraps. -/
theorem largest_five_doubled :
    ¬ ∃ d, strAdd largestFive largestFive ⟨0, 0, []⟩ = .ok (strNormal, d) ∧
      d.value = largestFive.value + largestFive.value := by
  rintro ⟨d, hadd, hvalue⟩
  have hresult : strAdd largestFive largestFive ⟨0, 0, []⟩ =
    .ok (strNormal, ⟨0, BitVec.intMin 64, [49]⟩) := rfl
  rw [hresult] at hadd
  cases hadd
  have hleft : Decimal.value ⟨0, BitVec.intMin 64, [49]⟩ = scaled 10 1 (-9223372036854775808) := rfl
  have hright : largestFive.value = scaled 10 5 9223372036854775807 := rfl
  have hten : scaled 10 (5 + 5) 9223372036854775807 = scaled 10 1 9223372036854775808 :=
    scaled_shift (by decide) 1 9223372036854775807 1
  rw [hleft, hright, ← scaled_add, hten, scaled_right_inj (by decide) (by decide)] at hvalue
  exact absurd hvalue (by decide)

end FreeVMS.Rtl.Num
