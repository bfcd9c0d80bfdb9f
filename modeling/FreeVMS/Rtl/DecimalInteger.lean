import FreeVMS.Rtl.DecimalDifference
import FreeVMS.Rtl.DivisionCode

/-!
# Decimals without an exponent

Digit strings as natural numbers: how two of them compare once their leading zeros are gone, and
what `str$sub` and `str$add` make of them.
-/

namespace FreeVMS.Rtl.Num

open Lib.Digits

/-! ### Leading zeros -/

theorem number_cons (c : Byte) (s : List Byte) :
    number (c :: s) = digitOf c * 10 ^ s.length + number s := by
  have hone : number [c] = digitOf c := by simp [number]
  rw [← List.singleton_append, number_append, hone]

/-- A digit string as the descriptors hold it. -/
structure Plain (s : List Byte) : Prop where
  nonempty : s ≠ []
  digits : Digits s
  length : s.length ≤ 65535

/-- Without leading zeros. -/
def Trimmed (s : List Byte) : Prop := s = [zero] ∨ s.head? ≠ some zero

theorem trim_plain {s : List Byte} (h : Plain s) :
    Plain (lzerotrim s) ∧ Trimmed (lzerotrim s) ∧ number (lzerotrim s) = number s ∧
      (lzerotrim s).length ≤ s.length := by
  obtain ⟨t, hsplit, hne, htrimmed⟩ := lzerotrim_spec h.nonempty
  have hdigits := h.digits
  have hlength := congrArg List.length hsplit
  have hnumber := congrArg number hsplit
  rw [hsplit, digits_append] at hdigits
  rw [List.length_append, List.length_replicate] at hlength
  rw [number_append, number_zeros, Nat.zero_mul, Nat.zero_add] at hnumber
  have hlen := h.length
  exact ⟨⟨hne, hdigits.2, by omega⟩, htrimmed, hnumber.symm, by omega⟩

/-- The first digit counts. -/
theorem pow_le_number {s : List Byte} (h : Plain s) (hhead : s.head? ≠ some zero) :
    10 ^ (s.length - 1) ≤ number s := by
  have hne := h.nonempty
  have hdigits := h.digits
  cases s with
  | nil => exact absurd rfl hne
  | cons c s =>
    rw [digits_cons] at hdigits
    have hpos : 0 < digitOf c := by
      rw [Nat.pos_iff_ne_zero]
      intro hzero
      apply hhead
      rw [List.head?_cons, ← digitChr_digitOf hdigits.1, hzero]
      rfl
    have hmul : 1 * 10 ^ s.length ≤ digitOf c * 10 ^ s.length := Nat.mul_le_mul_right _ hpos
    rw [number_cons, List.length_cons, Nat.add_sub_cancel]
    omega

/-- A longer number is larger. -/
theorem number_lt_of_length {s t : List Byte} (hs : Plain s) (ht : Plain t) (htrim : Trimmed t)
    (h : s.length < t.length) : number s < number t := by
  have hpos := List.length_pos_iff.mpr hs.nonempty
  have hhead : t.head? ≠ some zero := by
    rcases htrim with hzero | hhead
    · rw [hzero, List.length_singleton] at h
      omega
    · exact hhead
  calc number s < 10 ^ s.length := number_lt hs.digits
    _ ≤ 10 ^ (t.length - 1) := Nat.pow_le_pow_right (by decide) (by omega)
    _ ≤ number t := pow_le_number ht hhead

/-! ### Comparing -/

theorem slt_digit {c d : Byte} (hc : IsDigit c) (hd : IsDigit d) :
    d.slt c = true ↔ digitOf d < digitOf c := by
  rw [slt_digit_iff (Or.inr hd) hc, digitSum_of_isDigit hc, digitSum_of_isDigit hd]
  constructor
  · rintro (rfl | h)
    · exact absurd hd not_isDigit_nul
    · omega
  · intro h
    right
    omega

theorem compareLoop_eq_compare {s : List Byte} : ∀ {t : List Byte}, s.length = t.length →
    Digits s → Digits t → compareLoop s t = compare (number s) (number t) := by
  induction s with
  | nil =>
    intro t hlen _ _
    obtain rfl : t = [] := List.length_eq_zero_iff.mp hlen.symm
    rfl
  | cons c s ih =>
    intro t hlen hs ht
    cases t with
    | nil => cases hlen
    | cons d t =>
      rw [digits_cons] at hs ht
      have hlen' : s.length = t.length := by simpa using hlen
      have hslt := number_lt hs.2
      have htlt := number_lt ht.2
      rw [compareLoop, number_cons, number_cons, hlen']
      rw [hlen'] at hslt
      by_cases hgt : digitOf d < digitOf c
      · rw [if_pos ((slt_digit hs.1 ht.1).mpr hgt), eq_comm, Nat.compare_eq_gt]
        have hmul : (digitOf d + 1) * 10 ^ t.length ≤ digitOf c * 10 ^ t.length :=
          Nat.mul_le_mul_right _ hgt
        rw [Nat.add_mul, Nat.one_mul] at hmul
        omega
      · rw [if_neg (by rwa [slt_digit hs.1 ht.1])]
        by_cases hlt : digitOf c < digitOf d
        · rw [if_pos ((slt_digit ht.1 hs.1).mpr hlt), eq_comm, Nat.compare_eq_lt]
          have hmul : (digitOf c + 1) * 10 ^ t.length ≤ digitOf d * 10 ^ t.length :=
            Nat.mul_le_mul_right _ hlt
          rw [Nat.add_mul, Nat.one_mul] at hmul
          omega
        · have heq : digitOf c = digitOf d := by omega
          rw [if_neg (by rwa [slt_digit ht.1 hs.1]), ih hlen' hs.2 ht.2, heq,
            Nat.compare_eq_ite_lt, Nat.compare_eq_ite_lt]
          simp only [Nat.add_lt_add_iff_left]

/-- The order of the texts is that of the numbers exactly where a longer text has a larger number. -/
theorem compareText_right_iff {s t : List Byte} (hs : Plain s) (ht : Plain t) :
    compareText s t = compare (number s) (number t) ↔
      (t.length < s.length → number t < number s) ∧ (s.length < t.length → number s < number t) := by
  have hslen := hs.length
  have htlen := ht.length
  unfold compareText
  rw [Nat.mod_eq_of_lt (by omega), Nat.mod_eq_of_lt (by omega), List.take_length, List.take_length]
  by_cases hgt : t.length < s.length
  · rw [if_pos hgt, eq_comm, Nat.compare_eq_gt]
    exact ⟨fun h => ⟨fun _ => h, fun hlt => absurd hlt (by omega)⟩, fun h => h.1 hgt⟩
  · rw [if_neg hgt]
    by_cases hlt : s.length < t.length
    · rw [if_pos hlt, eq_comm, Nat.compare_eq_lt]
      exact ⟨fun h => ⟨fun hgt' => absurd hgt' hgt, fun _ => h⟩, fun h => h.2 hlt⟩
    · rw [if_neg hlt]
      have hloop := compareLoop_eq_compare (by omega) hs.digits ht.digits
      exact ⟨fun _ => ⟨fun h => absurd h hgt, fun h => absurd h hlt⟩, fun _ => hloop⟩

/-- Trimmed strings compare as their numbers do. -/
theorem compareText_eq_compare {s t : List Byte} (hs : Plain s) (ht : Plain t) (hst : Trimmed s)
    (htt : Trimmed t) : compareText s t = compare (number s) (number t) := by
  rw [compareText_right_iff hs ht]
  constructor
  · exact number_lt_of_length ht hs hst
  · exact number_lt_of_length hs ht htt

/-! ### Results -/

/-- A result with the zeros that its exponent stands for. -/
def Decimal.restored (d : Decimal) : List Byte :=
  append d.digits (List.replicate d.exp.toInt.toNat zero)

/-- What the trims take from a number without an exponent is put back. -/
theorem trim_restored {s : List Byte} (h : Plain s) :
    ∃ d, trim 0 0 s = .ok d ∧ Plain d.restored ∧ number d.restored = number s ∧
      d.restored.length ≤ s.length := by
  obtain ⟨r, lead, trail, hsplit, hcases⟩ := trim_spec 0 0 h.nonempty
  have hdigits := h.digits
  have hlength := congrArg List.length hsplit
  have hlen := h.length
  have hnumber := congrArg number hsplit
  rw [hsplit, digits_padded] at hdigits
  rw [number_padded] at hnumber
  simp only [List.length_append, List.length_replicate] at hlength
  rcases hcases with ⟨rfl, htrim⟩ | ⟨hne, _, _, htrim⟩
  · have hrestored : Decimal.restored ⟨0, 0, [zero]⟩ = [zero] := rfl
    have hzero : number [zero] = 0 := rfl
    rw [List.length_singleton] at hlength
    rw [hzero, Nat.zero_mul] at hnumber
    refine ⟨_, htrim, ?_⟩
    rw [hrestored, hzero, hnumber, List.length_singleton]
    exact ⟨⟨List.cons_ne_nil _ _, by decide, by decide⟩, rfl, by omega⟩
  · have hexp : (0 + BitVec.ofNat 64 trail : BitVec 64).toInt.toNat = trail := by
      rw [zero_add, toInt_ofNat_small (by omega), Int.toNat_natCast]
    have hrestored : Decimal.restored ⟨0, 0 + BitVec.ofNat 64 trail, r⟩ =
        r ++ List.replicate trail zero := by
      simp only [Decimal.restored, hexp]
      apply List.take_of_length_le
      rw [List.length_append, List.length_replicate, maxCstr16]
      omega
    refine ⟨_, htrim, ?_⟩
    rw [hrestored, number_append, number_zeros, List.length_replicate, hnumber, Nat.add_zero]
    refine ⟨⟨by simp [hne], digits_append.mpr ⟨hdigits, digits_zeros trail⟩, ?_⟩, rfl, ?_⟩ <;>
    · rw [List.length_append, List.length_replicate]
      omega

theorem text_plain {s : List Byte} (h : Plain s) : text (load s) 0 maxstr = s := by
  have hlen := h.length
  exact text_load h.digits (by rw [maxstr]; omega)

theorem adjusted_plain {sign : Nat} {s : List Byte} (h : Plain s) :
    (adjusted ⟨sign, 0, s⟩ 0).toInt = s.length := by
  have hlen := h.length
  have hzero : (0 : BitVec 64).setWidth 32 = 0 := rfl
  have hnat : (adjusted ⟨sign, 0, s⟩ 0).toNat = s.length := by
    rw [adjusted, hzero, add_zero, sub_zero, Decimal.len, BitVec.toNat_setWidth, BitVec.toNat_ofNat]
    simp only
    omega
  rw [BitVec.toInt_eq_toNat_cond, hnat]
  omega

/-- What `str$sub` does with the copies of two such numbers. -/
theorem strSub_way_plain {s t : List Byte} (hs : Plain s) (ht : Plain t) {sign : Nat}
    (hsign : sign = 1 ∨ sign = 0) (c : Decimal) :
    (∀ csign, subCase (compareText s t) 0 sign = .norm csign →
      strSub ⟨0, 0, s⟩ ⟨sign, 0, t⟩ c = do
        let out ← subNorm s.reverse t.reverse
        subResult csign 0 out) ∧
    (∀ csign, subCase (compareText s t) 0 sign = .delegate csign →
      strSub ⟨0, 0, s⟩ ⟨sign, 0, t⟩ c = do
        let r ← addEqual ⟨0, 0, s⟩ ⟨0, 0, t⟩ ⟨c.sign, 0, []⟩
        return (r.1, { r.2 with sign := csign })) := by
  have hslen := hs.length
  have htlen := ht.length
  have hvalid : signsValid ⟨0, 0, s⟩ ⟨sign, 0, t⟩ = true := by
    simp [signsValid, hsign]
  have hload : ∀ sign u, padDifference ⟨sign, 0, u⟩ 0 = .ok (load u) := by
    intro sign u
    rfl
  have hmin : minExp ⟨0, 0, s⟩ ⟨sign, 0, t⟩ = 0 := rfl
  have hbound : ¬ ((maxstr : Int) < (s.length : Int) ∨ (maxstr : Int) < (t.length : Int)) := by
    rw [maxstr]
    omega
  unfold strSub
  rw [hvalid, if_neg (by decide)]
  simp only [hmin, hload, adjusted_plain hs, adjusted_plain ht, bind, Except.bind, if_neg hbound,
    Int.toNat_natCast, columns_load, ncompare, text_plain hs, text_plain ht]
  constructor
  · intro csign hway
    rw [hway]
  · intro csign hway
    rw [hway]

/-- `str$sub` of a number that is not the smaller one. -/
theorem strSub_plain {s t : List Byte} (hs : Plain s) (ht : Plain t) (c : Decimal)
    (horder : compareText s t ≠ .lt) (hle : number t ≤ number s) :
    ∃ d, strSub ⟨0, 0, s⟩ ⟨0, 0, t⟩ c = .ok (strNormal, d) ∧ Plain d.restored ∧
      number d.restored = number s - number t ∧ d.restored.length ≤ s.length := by
  have hslen := hs.length
  have htlen := ht.length
  have hcase : ∀ r : Ordering, r ≠ .lt → subCase r 0 0 = .norm 0 := by decide
  have hholds : NormHolds s.reverse t.reverse := by
    refine ⟨digits_reverse.mpr ht.digits, ?_, ?_, ?_⟩
    · rw [List.length_reverse, List.length_reverse]
      exact (compareText_cases (by omega) (by omega)).1 horder
    · rw [total_reverse hs.digits, total_reverse ht.digits]
      exact_mod_cast hle
    · intro p _ hp
      have hmem := List.mem_of_getElem? hp
      exact absurd (digits_reverse.mpr hs.digits 0 hmem) not_isDigit_nul
  obtain ⟨out, hout, hdigits, hlen, htotal⟩ :=
    subNorm_of_holds (allCells_of_digits (digits_reverse.mpr hs.digits)) hholds
  rw [List.length_reverse] at hlen
  have hplain : Plain out.reverse := by
    refine ⟨?_, digits_reverse.mpr hdigits, by rw [List.length_reverse]; omega⟩
    rw [← List.length_pos_iff, List.length_reverse, hlen]
    exact List.length_pos_iff.mpr hs.nonempty
  have hnumber : number out.reverse = number s - number t := by
    have hint := number_reverse hdigits
    rw [htotal, total_reverse hs.digits, total_reverse ht.digits] at hint
    omega
  obtain ⟨d, htrim, hrestored, hvalue, hshort⟩ := trim_restored hplain
  refine ⟨d, ?_, hrestored, by rw [hvalue, hnumber], ?_⟩
  · have htake : out.reverse.take (min out.length maxUint16 % 65536) = out.reverse := by
      apply List.take_of_length_le
      rw [List.length_reverse, maxUint16]
      omega
    have hresult : subResult 0 0 out = .ok (strNormal, d) := by
      simp only [subResult, htake, htrim]
      rw [if_neg (by rw [maxUint16]; omega)]
      rfl
    rw [(strSub_way_plain hs ht (Or.inr rfl) c).1 0 (hcase _ horder)]
    simp only [hout, bind, Except.bind, hresult]
  · rw [List.length_reverse] at hshort
    omega

/-- `str$add` of two such numbers gives the sum, unless it gets too long. -/
theorem addEqual_plain {s t : List Byte} (hs : Plain s) (ht : Plain t) (sign : Nat) {r}
    (hr : addEqual ⟨0, 0, s⟩ ⟨0, 0, t⟩ ⟨sign, 0, []⟩ = .ok r) :
    Plain r.2.restored ∧ number r.2.restored = number s + number t := by
  have hslen := hs.length
  have htlen := ht.length
  have hpos : 0 < s.length := List.length_pos_iff.mpr hs.nonempty
  obtain ⟨hdigits, hlen, hcarry, hvalue⟩ := addLoop_spec (max s.length t.length)
    (digits_reverse.mpr hs.digits) (digits_reverse.mpr ht.digits)
    (by rw [List.length_reverse]; omega) (by rw [List.length_reverse]; omega) (Or.inl rfl)
  rw [total_reverse hs.digits, total_reverse ht.digits] at hvalue
  have hlenx : ∀ u : List Byte, u.length ≤ 65535 → (Decimal.len ⟨0, 0, u⟩).toNat = u.length := by
    intro u hu
    exact Nat.mod_eq_of_lt (Nat.lt_succ_of_le hu)
  have hsize : ∀ u : List Byte, u.length ≤ 65535 →
      (0 : BitVec 64) + (Decimal.len ⟨0, 0, u⟩).setWidth 64 = 0 + BitVec.ofNat 64 u.length := by
    intro u hu
    congr 1
    apply BitVec.eq_of_toNat_eq
    rw [BitVec.toNat_setWidth, hlenx u hu, BitVec.toNat_ofNat]
  have hadd : addEqual ⟨0, 0, s⟩ ⟨0, 0, t⟩ ⟨sign, 0, []⟩ =
      addResult 0 0 (addLoop 0 s.reverse t.reverse (max s.length t.length)) := by
    have hvalid : signsValid ⟨0, 0, s⟩ ⟨0, 0, t⟩ = true := rfl
    have hpad : ∀ u, padSum ⟨0, 0, u⟩ false 0 0 = .ok (load u, Decimal.len ⟨0, 0, u⟩) := by
      intro u
      rfl
    have hslt : (0 : BitVec 64).slt 0 = false := rfl
    have hmax : maxExp ⟨0, 0, s⟩ ⟨0, 0, t⟩ = 0 := rfl
    have hmin : minExp ⟨0, 0, s⟩ ⟨0, 0, t⟩ = 0 := rfl
    simp only [addEqual, hvalid, ne_eq, not_true_eq_false, if_false, hslt, hmax, hmin]
    rw [sizes_overlap (hsize s hslen) (hsize t htlen) hslen htlen]
    simp only [Bool.false_eq_true, if_false, hpad, bind, Except.bind, hlenx s hslen, hlenx t htlen,
      columns_load]
    rfl
  obtain ⟨hcdigits, hcne, hclen, hcn⟩ := carried_spec
    (by rw [← List.length_pos_iff, hlen]; omega) hdigits hcarry
  rw [hlen, hvalue] at hcn
  rw [hadd] at hr
  generalize addLoop 0 s.reverse t.reverse (max s.length t.length) = sums at *
  by_cases hshort : (carried sums).length ≤ 65535
  · obtain ⟨d, htrim, hrestored, hnumber, _⟩ := trim_restored ⟨hcne, hcdigits, hshort⟩
    rw [addResult_eq 0 0 hshort, htrim] at hr
    cases hr
    refine ⟨hrestored, ?_⟩
    rw [hnumber]
    omega
  · -- no room for the carry: the length wraps, and the null pointer is written to
    have hlong : (carried sums).length = 65536 := by omega
    have hfill : fill (BitVec.ofNat 16 (carried sums).length) (carried sums) = .error .nullPointer := by
      rw [fill, hlong, if_neg (by decide), if_pos (by decide)]
    have htake : (carried sums).take maxUint16 = carried sums :=
      List.take_of_length_le (by rw [maxUint16]; omega)
    have hcarried : (if sums.2 = 1 then toChr sums.2 :: sums.1.reverse else sums.1.reverse) =
        carried sums := rfl
    simp only [addResult] at hr
    rw [hcarried, htake, hfill] at hr
    cases hr

/-- `str$sub` of a negative number that is not the larger one in size adds it. -/
theorem strSub_negative {s t : List Byte} (hs : Plain s) (ht : Plain t) (c : Decimal)
    (horder : compareText s t ≠ .lt) {r} (hr : strSub ⟨0, 0, s⟩ ⟨1, 0, t⟩ c = .ok r) :
    Plain r.2.restored ∧ number r.2.restored = number s + number t := by
  have hcase : ∀ r : Ordering, r ≠ .lt → subCase r 0 1 = .delegate 0 := by decide
  rw [(strSub_way_plain hs ht (Or.inl rfl) c).2 0 (hcase _ horder), bind_eq_ok] at hr
  obtain ⟨r', hadd, hr⟩ := hr
  cases hr
  have hsum := addEqual_plain hs ht c.sign hadd
  exact hsum

end FreeVMS.Rtl.Num
