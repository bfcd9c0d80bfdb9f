import FreeVMS.Rtl.DecimalBorrow

/-!
# The difference of two decimals

`str$sub`, and `str$add` of opposite signs, which is handed over to it. The padding stores one zero,
wherever the exponent puts it: only between the exponents 0 and 1 that is behind the digits. What
the two operands look like in the working storage decides about the result.
-/

namespace FreeVMS.Rtl.Num

open Lib.Digits Lib.Scaled

/-! ### The operands in the working storage -/

/-- Where the padding stores its zero. -/
def Decimal.unitCell (d : Decimal) : Int := d.digits.length + d.exp.toInt - 1

/-- The exponents differ as the `int`s that the padding takes them for. -/
def Decimal.Pads (d : Decimal) (min : BitVec 64) : Prop :=
  (min.setWidth 32).toInt < (d.exp.setWidth 32).toInt

instance (d : Decimal) (min : BitVec 64) : Decidable (d.Pads min) :=
  inferInstanceAs (Decidable (_ < _))

/-- The zero is stored within the array. -/
def Decimal.InRange (d : Decimal) (min : BitVec 64) : Prop :=
  d.Pads min → 0 ≤ d.unitCell ∧ d.unitCell < maxstr

instance (d : Decimal) (min : BitVec 64) : Decidable (d.InRange min) :=
  inferInstanceAs (Decidable (_ → _))

/-- The storage of an operand. -/
def Decimal.stored (d : Decimal) (min : BitVec 64) : Cells :=
  if d.Pads min then Function.update (load d.digits) d.unitCell.toNat zero else load d.digits

/-- The part of it that is worked on, the rightmost cell first. -/
def Decimal.cells (d : Decimal) (min : BitVec 64) : List Byte :=
  columns (d.stored min) (d.digits.length + d.gap min.toInt)

section Storage

variable {d : Decimal} {min : BitVec 64}

theorem padDifference_eq (hd : d.Operand) (hlen : d.digits.length ≤ 65534) :
    padDifference d min =
      if d.InRange min then .ok (d.stored min) else .error .outOfBounds := by
  have hpos : 0 < d.digits.length := List.length_pos_iff.mpr hd.nonempty
  have hlow := d.exp.two_mul_toInt_lt
  have hhigh := d.exp.le_two_mul_toInt
  have hcell : (d.len.setWidth 64 + d.exp - 1).toInt = Int.bmod d.unitCell (2 ^ 64) := by
    have hback : d.exp = BitVec.ofInt 64 d.exp.toInt := BitVec.ofInt_toInt.symm
    have hsum : d.len.setWidth 64 + d.exp - 1 = BitVec.ofInt 64 d.unitCell := by
      rw [setWidth_len hlen, hback, Decimal.unitCell, BitVec.ofInt_toInt, sub_eq_add_neg,
        sub_eq_add_neg, BitVec.ofInt_add, BitVec.ofInt_add, BitVec.ofInt_toInt]
      rfl
    rw [hsum, BitVec.toInt_ofInt]
  have hrange : ((d.len.setWidth 64 + d.exp - 1).toInt < 0 ∨
      (maxstr : Int) ≤ (d.len.setWidth 64 + d.exp - 1).toInt) ↔
        ¬ (0 ≤ d.unitCell ∧ d.unitCell < maxstr) := by
    rw [hcell, Int.bmod_def, maxstr, Decimal.unitCell]
    omega
  unfold padDifference Decimal.stored Decimal.InRange Decimal.Pads
  simp only [hrange]
  by_cases hpads : (min.setWidth 32).toInt < (d.exp.setWidth 32).toInt
  · simp only [hpads, not_le.mpr hpads, if_false, if_true, true_imp_iff]
    by_cases hin : 0 ≤ d.unitCell ∧ d.unitCell < maxstr
    · have heq : (d.len.setWidth 64 + d.exp - 1).toInt = d.unitCell := by
        rw [hcell, Int.bmod_def]
        have hmax : (maxstr : Int) = 132000 := rfl
        omega
      rw [if_neg (not_not.mpr hin), if_pos hin, heq]
    · rw [if_pos hin, if_neg hin]
  · simp only [hpads, not_lt.mp hpads, if_true, if_false, false_imp_iff]

theorem adjusted_eq (hlow : min.toInt ≤ d.exp.toInt)
    (hlen : d.digits.length + d.gap min.toInt ≤ 65534) :
    (adjusted d min).toInt = ((d.digits.length + d.gap min.toInt : Nat) : Int) := by
  have hwidth : d.len.setWidth 32 = BitVec.ofNat 32 d.digits.length := by
    apply BitVec.eq_of_toNat_eq
    simp only [Decimal.len, BitVec.toNat_setWidth, BitVec.toNat_ofNat]
    omega
  have hexp : d.exp.setWidth 32 = min.setWidth 32 + BitVec.ofNat 32 (d.gap min.toInt) := by
    conv_lhs => rw [exp_eq_low hlow]
    rw [BitVec.setWidth_add _ _ (by decide)]
    congr 1
    apply BitVec.eq_of_toNat_eq
    simp only [BitVec.toNat_setWidth, BitVec.toNat_ofNat]
    omega
  have hsum : adjusted d min = BitVec.ofNat 32 (d.digits.length + d.gap min.toInt) := by
    rw [adjusted, hwidth, hexp, BitVec.ofNat_add]
    ring
  have hcond := BitVec.toInt_eq_toNat_cond (adjusted d min)
  rw [hsum, BitVec.toNat_ofNat] at hcond
  rw [hsum]
  omega

theorem length_columns (a : Cells) (n : Nat) : (columns a n).length = n := by
  induction n with
  | zero => rfl
  | succ n ih => rw [columns, List.length_cons, ih]

theorem getElem?_columns (a : Cells) (n p : Nat) :
    (columns a n)[p]? = if p < n then some (a (n - 1 - p)) else none := by
  induction n generalizing p with
  | zero => rfl
  | succ n ih =>
    cases p with
    | zero => simp [columns]
    | succ p =>
      rw [columns, List.getElem?_cons_succ, ih]
      have hindex : n + 1 - 1 - (p + 1) = n - 1 - p := by omega
      simp only [hindex, Nat.succ_lt_succ_iff]

theorem mem_columns {a : Cells} {n : Nat} {c : Byte} :
    c ∈ columns a n ↔ ∃ i, i < n ∧ a i = c := by
  induction n with
  | zero => simp [columns]
  | succ n ih =>
    rw [columns, List.mem_cons, ih]
    constructor
    · rintro (rfl | ⟨i, hi, rfl⟩)
      · exact ⟨n, Nat.lt_succ_self n, rfl⟩
      · exact ⟨i, by omega, rfl⟩
    · rintro ⟨i, hi, rfl⟩
      by_cases hin : i = n
      · exact Or.inl (by rw [hin])
      · exact Or.inr ⟨i, by omega, rfl⟩

theorem columns_congr {a b : Cells} {n : Nat} (h : ∀ i, i < n → a i = b i) :
    columns a n = columns b n := by
  induction n with
  | zero => rfl
  | succ n ih =>
    rw [columns, columns, h n (Nat.lt_succ_self n), ih fun i hi => h i (by omega)]

/-- A stored zero takes away what its cell stood for. -/
theorem total_columns_update (a : Cells) {u n : Nat} (hu : u < n) :
    total (columns (Function.update a u zero) n) + digitSum (a u) * 10 ^ (n - 1 - u) =
      total (columns a n) := by
  have hzero : digitSum zero = 0 := by decide
  induction n with
  | zero => cases hu
  | succ n ih =>
    rw [columns, columns, total_cons, total_cons]
    by_cases hun : u = n
    · subst hun
      have hrest : columns (Function.update a u zero) u = columns a u := by
        apply columns_congr
        intro i hi
        rw [Function.update_of_ne (Nat.ne_of_lt hi)]
      rw [Function.update_self, hzero, hrest, Nat.add_sub_cancel, Nat.sub_self]
      ring
    · rw [Function.update_of_ne (Ne.symm hun), ← ih (by omega)]
      have hpow : n + 1 - 1 - u = (n - 1 - u) + 1 := by omega
      rw [hpow, pow_succ]
      ring

theorem load_of_le {s : List Byte} {i : Nat} (h : s.length ≤ i) : load s i = 0 :=
  List.getD_eq_default s 0 h

theorem load_isDigit {s : List Byte} (hs : Digits s) {i : Nat} (h : i < s.length) :
    IsDigit (load s i) := by
  rw [load, List.getD_eq_getElem s 0 h]
  exact hs _ (List.getElem_mem h)

theorem total_columns_load {s : List Byte} (hs : Digits s) (g : Nat) :
    total (columns (load s) (s.length + g)) = number s * 10 ^ g := by
  have hcols : columns (load s) (s.length + g) = List.replicate g 0 ++ s.reverse := by
    have hrev : List.replicate g 0 ++ s.reverse = (s ++ List.replicate g 0).reverse := by
      rw [List.reverse_append, List.reverse_replicate]
    rw [hrev]
    apply columns_eq_reverse (by simp)
    intro i _
    by_cases h : i < s.length
    · rw [List.getD_append _ _ _ _ h]
      rfl
    · rw [List.getD_append_right _ _ _ _ (Nat.le_of_not_lt h), load_of_le (Nat.le_of_not_lt h)]
      simp [List.getD]
  have hnul : ∀ g : Nat, total (List.replicate g 0) = 0 := by
    intro g
    induction g with
    | zero => rfl
    | succ g ih =>
      rw [List.replicate_succ, total_cons, ih]
      decide
  rw [hcols, total_append, hnul, total_reverse hs, List.length_replicate]
  ring

/-- What the padding takes from the number when it hits a digit. -/
def Decimal.overwritten (d : Decimal) (min : BitVec 64) : Int :=
  if d.Pads min ∧ d.unitCell < d.digits.length then
    digitSum (load d.digits d.unitCell.toNat) *
      10 ^ (d.digits.length + d.gap min.toInt - 1 - d.unitCell.toNat)
  else 0

theorem length_cells : (d.cells min).length = d.digits.length + d.gap min.toInt :=
  length_columns _ _

theorem allCells_cells (hd : d.Operand) (min : BitVec 64) : AllCells (d.cells min) := by
  intro c hc
  obtain ⟨i, hi, rfl⟩ := mem_columns.mp hc
  have hload : Cell (load d.digits i) := by
    by_cases h : i < d.digits.length
    · exact Or.inr (load_isDigit hd.digits h)
    · exact Or.inl (load_of_le (Nat.le_of_not_lt h))
  unfold Decimal.stored
  split
  · by_cases hu : i = d.unitCell.toNat
    · rw [hu, Function.update_self]
      exact Or.inr isDigit_zero
    · rw [Function.update_of_ne hu]
      exact hload
  · exact hload

theorem total_cells (hd : d.Operand) (hin : d.InRange min) :
    total (d.cells min) + d.overwritten min = d.aligned min.toInt := by
  rw [Decimal.aligned, ← total_columns_load hd.digits]
  unfold Decimal.cells Decimal.stored Decimal.overwritten
  by_cases hpads : d.Pads min
  · obtain ⟨h0, _⟩ := hin hpads
    rw [if_pos hpads]
    simp only [hpads, true_and]
    by_cases hu : d.unitCell < d.digits.length
    · rw [if_pos hu]
      exact total_columns_update _ (by omega)
    · rw [if_neg hu, add_zero]
      by_cases hn : d.unitCell.toNat < d.digits.length + d.gap min.toInt
      · have hnul : digitSum 0 = 0 := by decide
        have hupdate := total_columns_update (load d.digits) hn
        rw [load_of_le (by omega), hnul, zero_mul, add_zero] at hupdate
        exact hupdate
      · congr 1
        apply columns_congr
        intro i hi
        rw [Function.update_of_ne (by omega)]
  · rw [if_neg hpads, if_neg (fun h => hpads h.1), add_zero]

theorem overwritten_nonneg (hd : d.Operand) (hin : d.InRange min) : 0 ≤ d.overwritten min := by
  unfold Decimal.overwritten
  split
  · next h =>
    obtain ⟨h0, _⟩ := hin h.1
    have hrange := digitSum_range (Or.inr (load_isDigit hd.digits (i := d.unitCell.toNat) (by omega)))
    exact mul_nonneg hrange.1 (pow_nonneg (by decide) _)
  · exact le_refl 0

/-- The top column is a digit. -/
theorem cells_top (hd : d.Operand) {c : Byte}
    (hc : (d.cells min).getLast? = some c) : IsDigit c := by
  have hpos : 0 < d.digits.length := List.length_pos_iff.mpr hd.nonempty
  have hlast : c = d.stored min 0 := by
    rw [List.getLast?_eq_getElem?, length_cells, Decimal.cells, getElem?_columns, if_pos (by omega)]
      at hc
    rw [← Option.some.inj hc]
    congr 1
    omega
  rw [hlast]
  unfold Decimal.stored
  split
  · by_cases hu : 0 = d.unitCell.toNat
    · rw [← hu, Function.update_self]
      exact isDigit_zero
    · rw [Function.update_of_ne hu]
      exact load_isDigit hd.digits hpos
  · exact load_isDigit hd.digits hpos

/-- Without a NUL in it, the storage stands for the number. -/
theorem overwritten_of_digits (hd : d.Operand) (hlow : min.toInt ≤ d.exp.toInt)
    (hdigits : Digits (d.cells min)) : d.overwritten min = 0 := by
  unfold Decimal.overwritten
  rw [if_neg]
  rintro ⟨hpads, hu⟩
  have hgap : d.gap min.toInt ≠ 0 := by
    intro hzero
    have hexp := exp_eq_low hlow
    rw [hzero] at hexp
    unfold Decimal.Pads at hpads
    rw [hexp, BitVec.add_zero] at hpads
    exact lt_irrefl _ hpads
  have hcell : IsDigit (d.stored min d.digits.length) := by
    apply hdigits
    exact mem_columns.mpr ⟨d.digits.length, by omega, rfl⟩
  have hpos : 0 < d.digits.length := List.length_pos_iff.mpr hd.nonempty
  rw [Decimal.stored, if_pos hpads, Function.update_of_ne (by omega), load_of_le (le_refl _)] at hcell
  exact not_isDigit_nul hcell

/-- The operand with the smaller exponent is stored as it is. -/
theorem cells_of_no_gap (hd : d.Operand) (hlow : min.toInt ≤ d.exp.toInt)
    (hgap : d.gap min.toInt = 0) : d.stored min = load d.digits ∧ Digits (d.cells min) := by
  have hexp := exp_eq_low hlow
  rw [hgap, BitVec.add_zero] at hexp
  have hstored : d.stored min = load d.digits := by
    rw [Decimal.stored, if_neg]
    unfold Decimal.Pads
    rw [hexp]
    exact lt_irrefl _
  refine ⟨hstored, ?_⟩
  rw [Decimal.cells, hstored, hgap, Nat.add_zero, columns_load]
  exact digits_reverse.mpr hd.digits

end Storage

/-! ### The routine by cases -/

/-- The call returns normally with a decimal number of the value `v`. -/
def Exact (r : Except Fault (Nat × Decimal)) (v : ℚ) : Prop :=
  ∃ d, r = .ok (strNormal, d) ∧ Digits d.digits ∧ d.value = v

/-- Which of the three ways `str$sub` goes. -/
def wayOf (a b : Decimal) : SubCase :=
  subCase (ncompare (a.stored (minExp a b)) (b.stored (minExp a b))) a.sign b.sign

theorem signsValid_of_operands {a b : Decimal} (ha : a.Operand) (hb : b.Operand) :
    signsValid a b = true := by
  simp only [signsValid, decide_eq_true_eq]
  exact ⟨ha.sign, hb.sign⟩

theorem minExp_le_left (a b : Decimal) : (minExp a b).toInt ≤ a.exp.toInt := by
  rw [toInt_minExp]
  exact lowExp_le_left a b

theorem minExp_le_right (a b : Decimal) : (minExp a b).toInt ≤ b.exp.toInt := by
  rw [toInt_minExp]
  exact lowExp_le_right a b

section Ways

variable {a b : Decimal}

theorem aligned_left (h : Aligned a b) :
    a.digits.length + a.gap (minExp a b).toInt ≤ 65534 := by
  rw [toInt_minExp]
  exact h.1

theorem aligned_right (h : Aligned a b) :
    b.digits.length + b.gap (minExp a b).toInt ≤ 65534 := by
  rw [toInt_minExp]
  exact h.2

theorem strSub_outOfRange (ha : a.Operand) (hb : b.Operand) (haligned : Aligned a b) (c : Decimal)
    (hout : ¬ (a.InRange (minExp a b) ∧ b.InRange (minExp a b))) :
    strSub a b c = .error .outOfBounds := by
  have hwa := aligned_left haligned
  have hwb := aligned_right haligned
  unfold strSub
  rw [signsValid_of_operands ha hb, if_neg (by decide)]
  simp only [padDifference_eq ha (Nat.le_of_add_right_le hwa),
    padDifference_eq hb (Nat.le_of_add_right_le hwb)]
  by_cases hin : a.InRange (minExp a b)
  · have hin' : ¬ b.InRange (minExp a b) := fun h => hout ⟨hin, h⟩
    rw [if_pos hin, if_neg hin']
    rfl
  · rw [if_neg hin]
    rfl

theorem strSub_way (ha : a.Operand) (hb : b.Operand) (haligned : Aligned a b) (c : Decimal)
    (hina : a.InRange (minExp a b)) (hinb : b.InRange (minExp a b)) (csign : Nat) :
    (wayOf a b = .delegate csign → strSub a b c = (do
      let r ← addEqual { a with sign := 0 } { b with sign := 0 } ⟨c.sign, minExp a b, []⟩
      return (r.1, { r.2 with sign := csign }))) ∧
    (wayOf a b = .norm csign → strSub a b c = (do
      let out ← subNorm (a.cells (minExp a b)) (b.cells (minExp a b))
      subResult csign (minExp a b) out)) ∧
    (wayOf a b = .rev csign → strSub a b c = (do
      let out ← subRev (b.cells (minExp a b)) (a.cells (minExp a b))
      subResult csign (minExp a b) out)) := by
  have hwa := aligned_left haligned
  have hwb := aligned_right haligned
  have hi := adjusted_eq (minExp_le_left a b) hwa
  have hj := adjusted_eq (minExp_le_right a b) hwb
  have hbound : ¬ ((maxstr : Int) < ((a.digits.length + a.gap (minExp a b).toInt : Nat) : Int) ∨
      (maxstr : Int) < ((b.digits.length + b.gap (minExp a b).toInt : Nat) : Int)) := by
    rw [maxstr]
    omega
  unfold strSub wayOf
  rw [signsValid_of_operands ha hb, if_neg (by decide)]
  simp only [padDifference_eq ha (Nat.le_of_add_right_le hwa),
    padDifference_eq hb (Nat.le_of_add_right_le hwb), if_pos hina, if_pos hinb, bind, Except.bind, hi,
    hj, if_neg hbound, Int.toNat_natCast, pure, Except.pure]
  refine ⟨?_, ?_, ?_⟩
  · intro hway
    rw [hway]
  · intro hway
    rw [hway]
    rfl
  · intro hway
    rw [hway]
    rfl

/-- The columns of a difference become a number: digits, if they are digits. -/
theorem subResult_exact_iff {out : List Byte} (hne : out ≠ []) (hlen : out.length ≤ 65534)
    (csign : Nat) (exp : BitVec 64) {w : Int} {L : Nat} (hL : L < 2 ^ 63) (hw : w.natAbs < 10 ^ L) :
    Exact (subResult csign exp out) (scaled 10 w exp.toInt) ↔
      Digits out ∧ signed csign (total out) = w ∧ Fits (scaled 10 w exp.toInt) := by
  have htake : out.reverse.take (min out.length maxUint16 % 65536) = out.reverse := by
    apply List.take_of_length_le
    rw [List.length_reverse, maxUint16, Nat.min_eq_left (by omega), Nat.mod_eq_of_lt (by omega)]
  have hresult : ∀ r, subResult csign exp out = .ok r ↔
      ∃ d, trim csign exp out.reverse = .ok d ∧ r = (strNormal, d) := by
    intro r
    simp only [subResult]
    rw [bind_eq_ok]
    have hstatus : (if maxUint16 < out.length then strTru else strNormal) = strNormal := by
      rw [if_neg]
      rw [maxUint16]
      omega
    rw [htake, hstatus]
    constructor
    · rintro ⟨d, hd, hr⟩
      exact ⟨d, hd, (Except.ok.inj hr).symm⟩
    · rintro ⟨d, hd, rfl⟩
      exact ⟨d, hd, rfl⟩
  have hrev : out.reverse ≠ [] := by simpa using hne
  constructor
  · rintro ⟨d, hd, hdigits, hvalue⟩
    obtain ⟨d', htrim, heq⟩ := (hresult _).mp hd
    cases heq
    rw [trim_digits_iff htrim] at hdigits
    obtain ⟨d', htrim', _, _, hdenotes⟩ := trim_denotes csign (BitVec.ofInt_toInt (x := exp)).symm
      hrev hdigits (by rw [List.length_reverse]; omega)
    rw [htrim] at htrim'
    cases htrim'
    rw [digits_reverse] at hdigits
    rw [number_reverse hdigits] at hdenotes
    exact ⟨hdigits, (hdenotes w L hL hw).mp hvalue⟩
  · rintro ⟨hdigits, hvalue⟩
    obtain ⟨d, htrim, _, hcanonical, hdenotes⟩ := trim_denotes csign
      (BitVec.ofInt_toInt (x := exp)).symm hrev (digits_reverse.mpr hdigits)
      (by rw [List.length_reverse]; omega)
    rw [number_reverse hdigits] at hdenotes
    exact ⟨d, (hresult _).mpr ⟨d, htrim, rfl⟩, hcanonical.2.1, (hdenotes w L hL hw).mpr hvalue⟩

/-! ### What each way gives -/

theorem delegate_exact_iff (ha : a.Operand) (hb : b.Operand) (haligned : Aligned a b) (c : Decimal)
    (hina : a.InRange (minExp a b)) (hinb : b.InRange (minExp a b)) {csign : Nat}
    (hway : wayOf a b = .delegate csign) {w : Int} {L : Nat} (hL : L < 2 ^ 63)
    (hw : w.natAbs < 10 ^ L) : Exact (strSub a b c) (scaled 10 w (lowExp a b)) ↔
      signed csign (a.aligned (lowExp a b) + b.aligned (lowExp a b)) = w ∧
        Fits (scaled 10 w (lowExp a b)) := by
  have ha0 : Decimal.Operand { a with sign := 0 } := ⟨Or.inr rfl, ha.nonempty, ha.digits⟩
  have hb0 : Decimal.Operand { b with sign := 0 } := ⟨Or.inr rfl, hb.nonempty, hb.digits⟩
  have haligned0 : Aligned { a with sign := 0 } { b with sign := 0 } := haligned
  have hadded := addEqual_spec (c := ⟨c.sign, minExp a b, []⟩) ha0 hb0 rfl haligned0 rfl
  obtain ⟨d, hadd, hsign, hcanonical, hdenotes⟩ := hadded
  rw [signed_zero_left] at hdenotes
  have hresult := hdenotes.resign hsign csign w L hL hw
  rw [(strSub_way ha hb haligned c hina hinb csign).1 hway, hadd]
  constructor
  · rintro ⟨d', hd', _, hvalue⟩
    cases hd'
    exact hresult.mp hvalue
  · intro h
    exact ⟨_, rfl, hcanonical.2.1, hresult.mpr h⟩

/-- The columns of either order, and then the number. -/
theorem columns_exact_iff {sub : Except Fault (List Byte)} {n : Nat} (hn : 0 < n) (hshort : n ≤ 65534)
    (hlen : ∀ out, sub = .ok out → out.length = n) (csign : Nat) (exp : BitVec 64) {w : Int} {L : Nat}
    (hL : L < 2 ^ 63) (hw : w.natAbs < 10 ^ L) :
    Exact (do let out ← sub; subResult csign exp out) (scaled 10 w exp.toInt) ↔
      (∃ out, sub = .ok out ∧ Digits out ∧ signed csign (total out) = w) ∧
        Fits (scaled 10 w exp.toInt) := by
  have hsub : ∀ out, sub = .ok out →
      (Exact (subResult csign exp out) (scaled 10 w exp.toInt) ↔
        Digits out ∧ signed csign (total out) = w ∧ Fits (scaled 10 w exp.toInt)) := by
    intro out hout
    have hout_len := hlen out hout
    apply subResult_exact_iff _ (by omega) csign exp hL hw
    rw [← List.length_pos_iff]
    omega
  constructor
  · rintro ⟨d, hd, hvalue⟩
    obtain ⟨out, hout, hresult⟩ := bind_eq_ok.mp hd
    obtain ⟨hdigits, htotal, hfits⟩ := (hsub out hout).mp ⟨d, hresult, hvalue⟩
    exact ⟨⟨out, hout, hdigits, htotal⟩, hfits⟩
  · rintro ⟨⟨out, hout, hdigits, htotal⟩, hfits⟩
    obtain ⟨d, hresult, hvalue⟩ := (hsub out hout).mpr ⟨hdigits, htotal, hfits⟩
    exact ⟨d, bind_eq_ok.mpr ⟨out, hout, hresult⟩, hvalue⟩

theorem norm_exact_iff (ha : a.Operand) (hb : b.Operand) (haligned : Aligned a b) (c : Decimal)
    (hina : a.InRange (minExp a b)) (hinb : b.InRange (minExp a b)) {csign : Nat}
    (hway : wayOf a b = .norm csign) {w : Int} {L : Nat} (hL : L < 2 ^ 63)
    (hw : w.natAbs < 10 ^ L) : Exact (strSub a b c) (scaled 10 w (lowExp a b)) ↔
      (∃ out, subNorm (a.cells (minExp a b)) (b.cells (minExp a b)) = .ok out ∧ Digits out ∧
        signed csign (total out) = w) ∧ Fits (scaled 10 w (lowExp a b)) := by
  have hpos : 0 < a.digits.length := List.length_pos_iff.mpr ha.nonempty
  rw [(strSub_way ha hb haligned c hina hinb csign).2.1 hway, ← toInt_minExp]
  exact columns_exact_iff (by omega) (aligned_left haligned)
    (fun out hout => (length_subNorm hout).trans length_cells) csign _ hL hw

theorem rev_exact_iff (ha : a.Operand) (hb : b.Operand) (haligned : Aligned a b) (c : Decimal)
    (hina : a.InRange (minExp a b)) (hinb : b.InRange (minExp a b)) {csign : Nat}
    (hway : wayOf a b = .rev csign) {w : Int} {L : Nat} (hL : L < 2 ^ 63)
    (hw : w.natAbs < 10 ^ L) : Exact (strSub a b c) (scaled 10 w (lowExp a b)) ↔
      RevDigits 0 (b.cells (minExp a b)) (a.cells (minExp a b)) ∧
        signed csign (total (b.cells (minExp a b)) - total (a.cells (minExp a b)) +
          lost 0 (b.cells (minExp a b)) (a.cells (minExp a b))) = w ∧
        Fits (scaled 10 w (lowExp a b)) := by
  have hpos : 0 < b.digits.length := List.length_pos_iff.mpr hb.nonempty
  have hstart : (0 : Int) = 0 ∨ (0 : Int) = 1 := Or.inl rfl
  obtain ⟨hiff, hrun⟩ := subRev_spec hstart (allCells_cells hb (minExp a b))
    (allCells_cells ha (minExp a b)) (fun h => absurd h (by decide))
  rw [lowered_zero] at hiff hrun
  rw [(strSub_way ha hb haligned c hina hinb csign).2.2 hway, ← toInt_minExp,
    columns_exact_iff (by omega) (aligned_right haligned)
      (fun out hout => (length_subRev hout).trans length_cells) csign _ hL hw, ← hiff]
  constructor
  · rintro ⟨⟨out, hout, hdigits, htotal⟩, hfits⟩
    rw [(hrun out hout hdigits).2, sub_zero] at htotal
    exact ⟨⟨out, hout, hdigits⟩, htotal, hfits⟩
  · rintro ⟨⟨out, hout, hdigits⟩, htotal, hfits⟩
    refine ⟨⟨out, hout, hdigits, ?_⟩, hfits⟩
    rw [(hrun out hout hdigits).2, sub_zero]
    exact htotal

end Ways

/-! ### Texts -/

theorem text_eq {a : Cells} {s : List Byte} : ∀ {i n : Nat}, s.length < n →
    (∀ k, k < s.length → a (i + k) = s.getD k 0 ∧ a (i + k) ≠ 0) → a (i + s.length) = 0 →
    text a i n = s := by
  induction s with
  | nil =>
    intro i n hn _ hstop
    obtain ⟨n, rfl⟩ := Nat.exists_eq_succ_of_ne_zero (Nat.ne_of_gt hn)
    rw [List.length_nil, Nat.add_zero] at hstop
    rw [text, if_pos hstop]
  | cons c s ih =>
    intro i n hn hcells hstop
    rw [List.length_cons] at hn hstop
    obtain ⟨n, rfl⟩ := Nat.exists_eq_succ_of_ne_zero (Nat.ne_of_gt (Nat.zero_lt_of_lt hn))
    obtain ⟨hc, hne⟩ := hcells 0 (by simp)
    rw [Nat.add_zero] at hc hne
    rw [text, if_neg hne, hc, ih (by omega)]
    · rfl
    · intro k hk
      have hnext : i + 1 + k = i + (k + 1) := by omega
      rw [hnext]
      exact hcells (k + 1) (by simpa using hk)
    · have hnext : i + 1 + s.length = i + (s.length + 1) := by omega
      rw [hnext]
      exact hstop

theorem text_load {s : List Byte} (hs : Digits s) (hlen : s.length < maxstr) :
    text (load s) 0 maxstr = s := by
  apply text_eq hlen
  · intro k hk
    rw [Nat.zero_add]
    refine ⟨rfl, ?_⟩
    intro h
    exact not_isDigit_nul (h ▸ load_isDigit hs hk)
  · rw [Nat.zero_add]
    exact load_of_le (le_refl _)

theorem length_text_le {a : Cells} {k : Nat} : ∀ {i n : Nat}, a (i + k) = 0 →
    (text a i n).length ≤ k := by
  induction k with
  | zero =>
    intro i n h
    cases n with
    | zero => exact le_refl 0
    | succ n =>
      rw [Nat.add_zero] at h
      rw [text, if_pos h]
      exact le_refl 0
  | succ k ih =>
    intro i n h
    cases n with
    | zero => exact Nat.zero_le _
    | succ n =>
      rw [text]
      split
      · exact Nat.zero_le _
      · rw [List.length_cons]
        apply Nat.succ_le_succ
        apply ih
        rw [Nat.add_assoc, Nat.add_comm 1 k]
        exact h

theorem mem_text {a : Cells} {c : Byte} {n : Nat} : ∀ {i : Nat}, c ∈ text a i n →
    c ≠ 0 ∧ ∃ k, a k = c := by
  induction n with
  | zero =>
    intro i h
    cases h
  | succ n ih =>
    intro i h
    rw [text] at h
    split at h
    · cases h
    · next hne =>
      rcases List.mem_cons.mp h with rfl | h
      · exact ⟨hne, i, rfl⟩
      · exact ih h

theorem compareLoop_eq {s t : List Byte} (hlen : s.length = t.length) (h : compareLoop s t = .eq) :
    s = t := by
  induction s generalizing t with
  | nil => exact (List.length_eq_zero_iff.mp hlen.symm).symm
  | cons c s ih =>
    cases t with
    | nil => simp at hlen
    | cons d t =>
      rw [compareLoop] at h
      split at h
      · cases h
      · next hgt =>
        split at h
        · cases h
        · next hlt =>
          have hcd : c = d := by
            rw [BitVec.slt_eq_decide, decide_eq_true_eq] at hgt hlt
            exact BitVec.eq_of_toInt_eq (by omega)
          rw [hcd, ih (by simpa using hlen) h]

theorem compareText_cases {s t : List Byte} (hs : s.length < 65536) (ht : t.length < 65536) :
    (compareText s t ≠ .lt → t.length ≤ s.length) ∧ (compareText s t = .eq → s = t) := by
  unfold compareText
  rw [Nat.mod_eq_of_lt hs, Nat.mod_eq_of_lt ht, List.take_length, List.take_length]
  by_cases hgt : t.length < s.length
  · rw [if_pos hgt]
    refine ⟨fun _ => by omega, ?_⟩
    intro h
    cases h
  · rw [if_neg hgt]
    by_cases hlt : s.length < t.length
    · rw [if_pos hlt]
      refine ⟨fun h => absurd rfl h, ?_⟩
      intro h
      cases h
    · rw [if_neg hlt]
      exact ⟨fun _ => by omega, compareLoop_eq (by omega)⟩

/-- What the signs and the comparison have to do with each other. -/
theorem subCase_norm {r : Ordering} {i j csign : Nat} (hi : i = 1 ∨ i = 0) (hj : j = 1 ∨ j = 0)
    (h : subCase r i j = .norm csign) :
    i = j ∧ r ≠ .lt ∧ (csign = i ∨ (csign = 0 ∧ i = 1 ∧ r = .eq)) := by
  rcases hi with rfl | rfl <;> rcases hj with rfl | rfl <;> cases r <;> cases h <;> decide

theorem subCase_rev {r : Ordering} {i j csign : Nat} (hi : i = 1 ∨ i = 0) (hj : j = 1 ∨ j = 0)
    (h : subCase r i j = .rev csign) :
    (i = j ∧ csign + i = 1) ∨ (i = 0 ∧ j = 1 ∧ csign = 0) := by
  rcases hi with rfl | rfl <;> rcases hj with rfl | rfl <;> cases r <;> cases h <;> decide

theorem subCase_delegate {r : Ordering} {i j csign : Nat} (hi : i = 1 ∨ i = 0) (hj : j = 1 ∨ j = 0)
    (h : subCase r i j = .delegate csign) : i + j = 1 ∧ csign = i := by
  rcases hi with rfl | rfl <;> rcases hj with rfl | rfl <;> cases r <;> cases h <;> decide

/-! ### Nines out of nothing -/

theorem stored_isDigit {d : Decimal} (hd : d.Operand) (min : BitVec 64) {i : Nat}
    (hi : i < d.digits.length) : IsDigit (d.stored min i) := by
  unfold Decimal.stored
  split
  · by_cases hu : i = d.unitCell.toNat
    · rw [hu, Function.update_self]
      exact isDigit_zero
    · rw [Function.update_of_ne hu]
      exact load_isDigit hd.digits hi
  · exact load_isDigit hd.digits hi

theorem stored_behind (d : Decimal) (min : BitVec 64) {i : Nat} (hi : d.digits.length ≤ i) :
    d.stored min i = 0 ∨ d.stored min i = zero := by
  unfold Decimal.stored
  split
  · by_cases hu : i = d.unitCell.toNat
    · rw [hu, Function.update_self]
      exact Or.inr rfl
    · rw [Function.update_of_ne hu]
      exact Or.inl (load_of_le hi)
  · exact Or.inl (load_of_le hi)

theorem total_eq_zero_iff {cs : List Byte} (h : AllCells cs) :
    total cs = 0 ↔ ∀ c ∈ cs, digitSum c = 0 := by
  induction cs with
  | nil => simp
  | cons c cs ih =>
    obtain ⟨hc, hcs⟩ := allCells_cons.mp h
    have hrange := digitSum_range hc
    have hrest := total_nonneg hcs
    rw [List.forall_mem_cons, ← ih hcs, total_cons]
    omega

/-- A digit in front of zeros that consists of nines in front of as many zeros or fewer. -/
theorem nines_unique {d : Int} {c n q : Nat} (h9 : d ≤ 9) (hq : q ≤ c) (hc : c < n)
    (h : d * 10 ^ c = 10 ^ n - 10 ^ q) : d = 9 ∧ n = c + 1 ∧ q = c := by
  have hpos : (0 : Int) < 10 ^ c := pow_pos (by decide) c
  have hlow : (10 : Int) ^ q ≤ 10 ^ c := pow_le_pow_right₀ (by decide) hq
  have hhigh : (10 : Int) ^ (c + 1) ≤ 10 ^ n := pow_le_pow_right₀ (by decide) hc
  rw [pow_succ] at hhigh
  have hd : d = 9 := by
    by_contra hne
    have hle : d * 10 ^ c ≤ 8 * 10 ^ c := Int.mul_le_mul_of_nonneg_right (by omega) hpos.le
    omega
  have hn : (10 : Int) ^ n ≤ 10 ^ (c + 1) := by
    rw [hd] at h
    rw [pow_succ]
    omega
  have hn' : n ≤ c + 1 := (pow_le_pow_iff_right₀ (by decide)).mp hn
  have hnc : n = c + 1 := by omega
  refine ⟨hd, hnc, ?_⟩
  rw [hd, hnc, pow_succ] at h
  have hqc : (10 : Int) ^ q = 10 ^ c := by omega
  have hbase : 2 ≤ 10 := by decide
  exact Nat.pow_right_injective hbase (by exact_mod_cast hqc)

section Corner

variable {a b : Decimal}

/-- Only one of two operands is padded. -/
theorem gap_of_gap (h : a.gap (minExp a b).toInt ≠ 0) : b.gap (minExp a b).toInt = 0 := by
  rw [toInt_minExp] at h ⊢
  unfold Decimal.gap lowExp at *
  omega

/-- A spurious borrow means that nothing of the minuend is left but zeros. -/
theorem spurious_zeros (ha : a.Operand) {min : BitVec 64} {ys out : List Byte} {p : Nat}
    (h : Spurious (a.cells min) ys out p) :
    p < a.gap min.toInt ∧ (∀ i, digitSum (a.stored min i) = 0) ∧ total (a.cells min) = 0 := by
  have hhole := h.hole
  rw [Decimal.cells, getElem?_columns] at hhole
  split at hhole
  · next hp =>
    have hnul := Option.some.inj hhole
    have hbehind : a.digits.length ≤ a.digits.length + a.gap min.toInt - 1 - p := by
      by_contra hfront
      have hdigit := stored_isDigit ha min (Nat.lt_of_not_le hfront)
      rw [hnul] at hdigit
      exact not_isDigit_nul hdigit
    have hzeros : ∀ i, digitSum (a.stored min i) = 0 := by
      intro i
      by_cases hi : i < a.digits.length
      · have hdrop : AllCells ((a.cells min).drop p) :=
          fun c hc => allCells_cells ha min c (List.mem_of_mem_drop hc)
        apply (total_eq_zero_iff hdrop).mp h.above
        have hindex : a.digits.length + a.gap min.toInt - 1 -
            (p + (a.digits.length + a.gap min.toInt - 1 - p - i)) = i := by omega
        have hget : ((a.cells min).drop p)[a.digits.length + a.gap min.toInt - 1 - p - i]? =
            some (a.stored min i) := by
          rw [List.getElem?_drop, Decimal.cells, getElem?_columns, if_pos (by omega), hindex]
        exact List.mem_of_getElem? hget
      · rcases stored_behind a min (Nat.le_of_not_lt hi) with hi | hi <;> rw [hi] <;> decide
    refine ⟨by omega, hzeros, ?_⟩
    rw [total_eq_zero_iff (allCells_cells ha min)]
    intro c hc
    obtain ⟨i, _, rfl⟩ := mem_columns.mp hc
    exact hzeros i
  · cases hhole

/-- The one operand whose storage is all zeros and whose number is nines: the zero of the padding
    was stored over it. -/
theorem overwritten_nine (ha : a.Operand) {min : BitVec 64} (hin : a.InRange min) {q : Nat}
    (hq : q ≤ a.gap min.toInt)
    (h : a.overwritten min = 10 ^ (a.digits.length + a.gap min.toInt) - 10 ^ q) :
    a.digits = [57] ∧ a.exp.toInt = 0 ∧ q = a.gap min.toInt := by
  have hpos : 0 < a.digits.length := List.length_pos_iff.mpr ha.nonempty
  unfold Decimal.overwritten at h
  split at h
  · next hcond =>
    obtain ⟨h0, _⟩ := hin hcond.1
    have hdigit := load_isDigit ha.digits (i := a.unitCell.toNat) (by omega)
    obtain ⟨hnine, hn, hqc⟩ := nines_unique (digitSum_range (Or.inr hdigit)).2
      (c := a.digits.length + a.gap min.toInt - 1 - a.unitCell.toNat) (by omega) (by omega) h
    have hone : a.digits.length = 1 := by omega
    have hunit : a.unitCell = 0 := by omega
    obtain ⟨c, hc⟩ := List.length_eq_one_iff.mp hone
    refine ⟨?_, ?_, by omega⟩
    · rw [hc]
      rw [hc, hunit] at hnine hdigit
      have hall : ∀ c, IsDigit c → digitSum c = 9 → c = 57 := by decide
      rw [hall c hdigit hnine]
    · rw [Decimal.unitCell, hone] at hunit
      omega
  · exfalso
    have hlt : (10 : Int) ^ q < 10 ^ (a.digits.length + a.gap min.toInt) :=
      pow_lt_pow_right₀ (by decide) (by omega)
    omega

theorem ncompare_eq (hb : b.Operand) (haligned : Aligned a b)
    (hgap : b.gap (minExp a b).toInt = 0) :
    ncompare (a.stored (minExp a b)) (b.stored (minExp a b)) =
      compareText (text (a.stored (minExp a b)) 0 maxstr) b.digits := by
  have hlen := aligned_right haligned
  rw [ncompare, (cells_of_no_gap hb (minExp_le_right a b) hgap).1,
    text_load hb.digits (by rw [maxstr]; omega)]

/-- The text of the storage goes no further than the first cell behind the digits, and the zero
    there if there is one. -/
theorem length_text_stored {d : Decimal} (hd : d.Operand) (min : BitVec 64) :
    (text (d.stored min) 0 maxstr).length ≤ d.digits.length + 1 ∧
      (d.unitCell < d.digits.length →
        (text (d.stored min) 0 maxstr).length ≤ d.digits.length) := by
  have hnul : ∀ i, d.digits.length ≤ i → i ≠ d.unitCell.toNat → d.stored min i = 0 := by
    intro i hi hu
    unfold Decimal.stored
    split
    · rw [Function.update_of_ne hu]
      exact load_of_le hi
    · exact load_of_le hi
  constructor
  · by_cases hu : d.digits.length = d.unitCell.toNat
    · apply length_text_le
      rw [Nat.zero_add]
      exact hnul _ (by omega) (by omega)
    · have hle : (text (d.stored min) 0 maxstr).length ≤ d.digits.length := by
        apply length_text_le
        rw [Nat.zero_add]
        exact hnul _ (le_refl _) hu
      omega
  · intro hfront
    have hpos : 0 < d.digits.length := List.length_pos_iff.mpr hd.nonempty
    apply length_text_le
    rw [Nat.zero_add]
    exact hnul _ (le_refl _) (by omega)

/-- A subtrahend with the text of a minuend of zeros is zero. -/
theorem aligned_zero_of_text (hb : b.Operand) (hinb : b.InRange (minExp a b))
    (hgap : b.gap (minExp a b).toInt = 0)
    (htext : text (a.stored (minExp a b)) 0 maxstr = b.digits)
    (hzeros : ∀ i, digitSum (a.stored (minExp a b) i) = 0) :
    b.aligned (minExp a b).toInt = 0 := by
  have hcells := cells_of_no_gap hb (minExp_le_right a b) hgap
  have hB := total_cells hb hinb
  rw [overwritten_of_digits hb (minExp_le_right a b) hcells.2, add_zero] at hB
  rw [← hB, total_eq_zero_iff (allCells_cells hb _)]
  intro c hc
  obtain ⟨i, hi, rfl⟩ := mem_columns.mp hc
  rw [hgap, Nat.add_zero] at hi
  have hmem : b.stored (minExp a b) i ∈ text (a.stored (minExp a b)) 0 maxstr := by
    rw [htext, hcells.1, load, List.getD_eq_getElem _ _ hi]
    exact List.getElem_mem hi
  obtain ⟨_, k, hk⟩ := mem_text hmem
  rw [← hk]
  exact hzeros k

/-- Nines in place of the minuend: it is 9, and the subtrahend a zero with one place less. -/
theorem corner_of_nines (ha : a.Operand) (hb : b.Operand) (hina : a.InRange (minExp a b))
    (hgap : b.gap (minExp a b).toInt = 0) {out : List Byte} {p : Nat}
    (h : Spurious (a.cells (minExp a b)) (b.cells (minExp a b)) out p)
    (hlength : b.digits.length ≤ (text (a.stored (minExp a b)) 0 maxstr).length)
    (hnines : a.overwritten (minExp a b) =
      10 ^ (a.digits.length + a.gap (minExp a b).toInt) - 10 ^ (p + 1)) :
    a.digits = [57] ∧ a.exp = 0 ∧ b.digits = [48] ∧ b.exp = -1 := by
  have hp := (spurious_zeros ha h).1
  obtain ⟨hnine, hexp, hpgap⟩ := overwritten_nine ha hina (by omega) hnines
  have hbpos : 0 < b.digits.length := List.length_pos_iff.mpr hb.nonempty
  have hb1 : b.digits.length = 1 := by
    have hunit : a.unitCell < a.digits.length := by
      unfold Decimal.unitCell
      omega
    have htext1 := (length_text_stored ha (minExp a b)).2 hunit
    rw [hnine] at htext1
    simp only [List.length_singleton] at htext1
    omega
  have hys : b.cells (minExp a b) = b.digits.reverse := by
    rw [Decimal.cells, (cells_of_no_gap hb (minExp_le_right a b) hgap).1, hgap, Nat.add_zero,
      columns_load]
  have hnothing := h.nothing
  have hp0 : p = 0 := by
    have hbound := (List.getElem?_eq_some_iff.mp hnothing).1
    rw [hys, List.length_reverse] at hbound
    omega
  obtain ⟨c, hc⟩ := List.length_eq_one_iff.mp hb1
  rw [hys, hc, hp0] at hnothing
  have hbexp : b.exp.toInt = -1 := by
    have hbexp := exp_eq_low (minExp_le_right a b)
    rw [hgap, BitVec.add_zero] at hbexp
    have hga : a.gap (minExp a b).toInt = 1 := by omega
    unfold Decimal.gap at hga
    rw [hbexp]
    omega
  refine ⟨hnine, BitVec.eq_of_toInt_eq (by rw [hexp]; rfl), ?_,
    BitVec.eq_of_toInt_eq (by rw [hbexp]; rfl)⟩
  rw [hc, show c = 48 from Option.some.inj hnothing]

/-- **Nines out of nothing** are right in one case only, 9 - 0.0. -/
theorem spurious_corner (ha : a.Operand) (hb : b.Operand) (haligned : Aligned a b)
    (hina : a.InRange (minExp a b)) (hinb : b.InRange (minExp a b)) {csign : Nat}
    (hway : wayOf a b = .norm csign) {out : List Byte} {p : Nat}
    (h : Spurious (a.cells (minExp a b)) (b.cells (minExp a b)) out p)
    (hvalue : signed csign (total out) =
      signed a.sign (a.aligned (minExp a b).toInt) - signed b.sign (b.aligned (minExp a b).toInt)) :
    a = ⟨0, 0, [57]⟩ ∧ b = ⟨0, -1, [48]⟩ := by
  obtain ⟨hsigns, hnlt, hcsign⟩ := subCase_norm ha.sign hb.sign hway
  obtain ⟨hp, hzeros, htotal⟩ := spurious_zeros ha h
  have hgap : b.gap (minExp a b).toInt = 0 := gap_of_gap (by omega)
  have hB := total_cells hb hinb
  rw [overwritten_of_digits hb (minExp_le_right a b)
    (cells_of_no_gap hb (minExp_le_right a b) hgap).2, add_zero] at hB
  have hA := total_cells ha hina
  rw [htotal, zero_add] at hA
  have hout := h.value
  rw [htotal, hB, length_cells] at hout
  rw [ncompare_eq hb haligned hgap] at hnlt hcsign
  have hlen := (length_text_stored ha (minExp a b)).1
  have hwa := aligned_left haligned
  have hwb := aligned_right haligned
  obtain ⟨hle, heq⟩ := compareText_cases
    (show (text (a.stored (minExp a b)) 0 maxstr).length < 65536 by omega)
    (show b.digits.length < 65536 by omega)
  rcases hcsign with hcsign | ⟨hcsign, hone, htexts⟩
  · have hnines : a.overwritten (minExp a b) =
        10 ^ (a.digits.length + a.gap (minExp a b).toInt) - 10 ^ (p + 1) := by
      have hsame : total out = a.aligned (minExp a b).toInt - b.aligned (minExp a b).toInt := by
        have hpow : ((-1 : Int) ^ a.sign) ≠ 0 := pow_ne_zero _ (by decide)
        rw [hcsign, ← hsigns] at hvalue
        simp only [signed, ← mul_sub] at hvalue
        exact mul_left_cancel₀ hpow hvalue
      omega
    obtain ⟨hnine, hexp, hzero, hbexp⟩ := corner_of_nines ha hb hina hgap h (hle hnlt) hnines
    obtain ⟨sa, ea, da⟩ := a
    obtain ⟨sb, eb, db⟩ := b
    simp only at hnine hexp hsigns hbexp hzero hcsign
    subst hnine hexp hzero hbexp hsigns
    rcases ha.sign with hsign | hsign
    · simp only at hsign
      subst hsign
      have hway' : wayOf ⟨1, 0, [57]⟩ ⟨1, -1, [48]⟩ = .norm 0 := by decide
      rw [hway'] at hway
      cases hway
      cases hcsign
    · simp only at hsign
      subst hsign
      exact ⟨rfl, rfl⟩
  · -- the texts are equal, so that the subtrahend is zero, and the minuend no less than nines
    exfalso
    have hzero := aligned_zero_of_text hb hinb hgap (heq htexts) hzeros
    have hlt : (10 : Int) ^ (p + 1) < 10 ^ (a.digits.length + a.gap (minExp a b).toInt) :=
      pow_lt_pow_right₀ (by decide) (by
        have hpos : 0 < a.digits.length := List.length_pos_iff.mpr ha.nonempty
        omega)
    have hnonneg := overwritten_nonneg ha hina
    rw [hcsign, signed_zero_left, hone, signed_one, hzero, hout, hzero] at hvalue
    simp only [signed, mul_zero] at hvalue
    omega

end Corner

/-! ### When the difference is right -/

/-- The operands whose difference `str$sub` returns. Where columns are subtracted in the order
    `NORM`, every NUL of the minuend takes part in a borrow, the padding hits no digit but a zero,
    and two negative numbers with one text in the storage are equal; in the order `REV` the borrows
    lose as much as the padding took, and for 1 - (-2) twice the first number on top of it. -/
structure SubHolds (a b : Decimal) : Prop where
  inRange : a.InRange (minExp a b) ∧ b.InRange (minExp a b)
  fits : Fits (a.value - b.value)
  norm : ∀ csign, wayOf a b = .norm csign →
    (NormHolds (a.cells (minExp a b)) (b.cells (minExp a b)) ∧ a.overwritten (minExp a b) = 0 ∧
      (csign = a.sign ∨ a.aligned (lowExp a b) = b.aligned (lowExp a b))) ∨
    (a = ⟨0, 0, [57]⟩ ∧ b = ⟨0, -1, [48]⟩)
  rev : ∀ csign, wayOf a b = .rev csign →
    RevDigits 0 (b.cells (minExp a b)) (a.cells (minExp a b)) ∧
      lost 0 (b.cells (minExp a b)) (a.cells (minExp a b)) =
        b.overwritten (minExp a b) + if a.sign = b.sign then 0 else 2 * a.aligned (lowExp a b)

/-- The operands of opposite signs whose sum `str$add` returns: it is `str$sub` that it returns the
    result of. -/
structure AddHolds (a b : Decimal) : Prop where
  inRange : a.InRange (minExp a b) ∧ b.InRange (minExp a b)
  fits : Fits (a.value + b.value)
  delegate : ∀ csign, wayOf a b = .delegate csign → number b.digits = 0
  rev : ∀ csign, wayOf a b = .rev csign →
    RevDigits 0 (b.cells (minExp a b)) (a.cells (minExp a b)) ∧
      lost 0 (b.cells (minExp a b)) (a.cells (minExp a b)) + 2 * b.aligned (lowExp a b) =
        b.overwritten (minExp a b) + 2 * a.aligned (lowExp a b)

theorem signed_succ (sign : Nat) (n : Int) : signed (sign + 1) n = -signed sign n := by
  simp only [signed, pow_succ]
  ring

section Difference

variable {a b : Decimal}

theorem value_combine (i j : Nat) (ha : a.Operand) (hb : b.Operand) (haligned : Aligned a b) :
    ∃ L, L < 2 ^ 63 ∧ (signed i (a.aligned (lowExp a b)) +
      signed j (b.aligned (lowExp a b))).natAbs < 10 ^ L := by
  obtain ⟨hwa, hwb⟩ := haligned
  exact ⟨_, by omega, natAbs_combined_lt i j (natAbs_aligned_lt ha _) (natAbs_aligned_lt hb _)⟩

theorem value_sub : a.value - b.value = scaled 10 (signed a.sign (a.aligned (lowExp a b)) +
    signed (b.sign + 1) (b.aligned (lowExp a b))) (lowExp a b) := by
  rw [value_eq_aligned (lowExp_le_left a b), value_eq_aligned (lowExp_le_right a b), ← scaled_sub,
    signed_succ, sub_eq_add_neg]

theorem value_add_signs : a.value + b.value = scaled 10 (signed a.sign (a.aligned (lowExp a b)) +
    signed b.sign (b.aligned (lowExp a b))) (lowExp a b) := by
  rw [value_eq_aligned (lowExp_le_left a b), value_eq_aligned (lowExp_le_right a b), ← scaled_add]

/-- In the order `NORM`. -/
theorem norm_right_iff (ha : a.Operand) (hb : b.Operand) (haligned : Aligned a b)
    (hina : a.InRange (minExp a b)) (hinb : b.InRange (minExp a b)) {csign : Nat}
    (hway : wayOf a b = .norm csign) :
    (∃ out, subNorm (a.cells (minExp a b)) (b.cells (minExp a b)) = .ok out ∧ Digits out ∧
        signed csign (total out) = signed a.sign (a.aligned (lowExp a b)) +
          signed (b.sign + 1) (b.aligned (lowExp a b))) ↔
      (NormHolds (a.cells (minExp a b)) (b.cells (minExp a b)) ∧ a.overwritten (minExp a b) = 0 ∧
        (csign = a.sign ∨ a.aligned (lowExp a b) = b.aligned (lowExp a b))) ∨
      (a = ⟨0, 0, [57]⟩ ∧ b = ⟨0, -1, [48]⟩) := by
  obtain ⟨hsigns, _, hcsign⟩ := subCase_norm ha.sign hb.sign hway
  have hA := total_cells ha hina
  have hB := total_cells hb hinb
  rw [toInt_minExp] at hA hB
  have hnonneg := overwritten_nonneg ha hina
  constructor
  · rintro ⟨out, hout, hdigits, hvalue⟩
    rcases holds_of_subNorm (allCells_cells ha _) (allCells_cells hb _)
      (fun c hc => cells_top ha hc) hout hdigits with hholds | ⟨p, hp⟩
    · left
      obtain ⟨out', hout', _, _, htotal⟩ := subNorm_of_holds (allCells_cells ha _) hholds
      rw [hout] at hout'
      cases hout'
      rw [overwritten_of_digits hb (minExp_le_right a b) hholds.digits, add_zero] at hB
      have hle := hholds.le
      rw [htotal, hB] at hvalue
      rw [hB] at hle
      generalize a.aligned (lowExp a b) = A at hA hvalue ⊢
      generalize b.aligned (lowExp a b) = B at hB hvalue hle ⊢
      rw [signed_succ, ← hsigns] at hvalue
      rcases hcsign with hcsign | ⟨hcsign, hone, _⟩
      · refine ⟨hholds, ?_, Or.inl hcsign⟩
        rcases ha.sign with hsign | hsign <;> rw [hcsign, hsign] at hvalue <;>
          simp only [signed_one, signed_zero_left] at hvalue <;> omega
      · rw [hcsign, hone, signed_zero_left, signed_one, signed_one] at hvalue
        exact ⟨hholds, by omega, Or.inr (by omega)⟩
    · right
      apply spurious_corner ha hb haligned hina hinb hway hp
      rw [hvalue, toInt_minExp, signed_succ, sub_eq_add_neg]
  · rintro (⟨hholds, hzero, hsame⟩ | ⟨rfl, rfl⟩)
    · obtain ⟨out, hout, hdigits, _, htotal⟩ := subNorm_of_holds (allCells_cells ha _) hholds
      refine ⟨out, hout, hdigits, ?_⟩
      rw [overwritten_of_digits hb (minExp_le_right a b) hholds.digits, add_zero] at hB
      rw [hzero, add_zero] at hA
      rw [htotal, hA, hB, signed_succ, ← hsigns]
      rcases hsame with hsame | hsame
      · rw [hsame]
        simp only [signed]
        ring
      · rw [hsame]
        simp only [signed]
        ring
    · have hzero : csign = 0 := by
        have hway' : wayOf ⟨0, 0, [57]⟩ ⟨0, -1, [48]⟩ = .norm 0 := by decide
        rw [hway'] at hway
        cases hway
        rfl
      subst hzero
      exact ⟨[48, 57], rfl, by decide, by decide⟩

theorem rev_right_iff (ha : a.Operand) (hb : b.Operand)
    (hina : a.InRange (minExp a b)) (hinb : b.InRange (minExp a b)) {csign : Nat} (w : Int) :
    (RevDigits 0 (b.cells (minExp a b)) (a.cells (minExp a b)) ∧
        signed csign (total (b.cells (minExp a b)) - total (a.cells (minExp a b)) +
          lost 0 (b.cells (minExp a b)) (a.cells (minExp a b))) = w) ↔
      RevDigits 0 (b.cells (minExp a b)) (a.cells (minExp a b)) ∧
        signed csign (b.aligned (lowExp a b) - b.overwritten (minExp a b) - a.aligned (lowExp a b) +
          lost 0 (b.cells (minExp a b)) (a.cells (minExp a b))) = w := by
  have hA := total_cells ha hina
  have hB := total_cells hb hinb
  rw [toInt_minExp] at hA hB
  constructor <;>
  · rintro ⟨hdigits, hvalue⟩
    rw [overwritten_of_digits ha (minExp_le_left a b) hdigits.digits, add_zero] at hA
    refine ⟨hdigits, ?_⟩
    rw [← hvalue, ← hA, ← hB]
    congr 1
    ring

theorem not_exact_outOfRange (ha : a.Operand) (hb : b.Operand) (haligned : Aligned a b) (c : Decimal)
    (v : ℚ) (h : Exact (strSub a b c) v) : a.InRange (minExp a b) ∧ b.InRange (minExp a b) := by
  by_contra hout
  rw [strSub_outOfRange ha hb haligned c hout] at h
  obtain ⟨d, hd, _⟩ := h
  cases hd

/-- The signs of a delegated difference. -/
theorem delegate_value {i j csign : Nat} (hi : i = 1 ∨ i = 0) (h : i + j = 1 ∧ csign = i)
    (A B : Int) : signed csign (A + B) = signed i A + signed (j + 1) B := by
  obtain ⟨hj, rfl⟩ := h
  rcases hi with rfl | rfl
  · obtain rfl : j = 0 := by omega
    simp only [signed]
    ring
  · obtain rfl : j = 1 := by omega
    simp only [signed]
    ring

/-- The signs of a reversed difference. -/
theorem rev_value_iff {i j csign : Nat} (hi : i = 1 ∨ i = 0)
    (h : (i = j ∧ csign + i = 1) ∨ (i = 0 ∧ j = 1 ∧ csign = 0)) (A B taken loss : Int) :
    signed csign (B - taken - A + loss) = signed i A + signed (j + 1) B ↔
      loss = taken + if i = j then 0 else 2 * A := by
  rcases h with ⟨rfl, hc⟩ | ⟨rfl, rfl, rfl⟩
  · rw [if_pos rfl, signed_succ]
    rcases hi with rfl | rfl
    · obtain rfl : csign = 0 := by omega
      rw [signed_zero_left, signed_one, signed_one]
      omega
    · obtain rfl : csign = 1 := by omega
      rw [signed_one, signed_zero_left, signed_zero_left]
      omega
  · rw [if_neg (by decide), signed_succ, signed_zero_left, signed_zero_left, signed_one]
    omega

theorem strSub_exact_iff (ha : a.Operand) (hb : b.Operand) (haligned : Aligned a b) (c : Decimal) :
    Exact (strSub a b c) (a.value - b.value) ↔ SubHolds a b := by
  obtain ⟨L, hL, hw⟩ := value_combine a.sign (b.sign + 1) ha hb haligned
  by_cases hin : a.InRange (minExp a b) ∧ b.InRange (minExp a b)
  · obtain ⟨hina, hinb⟩ := hin
    cases hway : wayOf a b with
    | delegate csign =>
      have hvalue := delegate_value ha.sign (subCase_delegate ha.sign hb.sign hway)
        (a.aligned (lowExp a b)) (b.aligned (lowExp a b))
      rw [value_sub, delegate_exact_iff ha hb haligned c hina hinb hway hL hw, ← value_sub]
      constructor
      · rintro ⟨_, hfits⟩
        refine ⟨⟨hina, hinb⟩, hfits, ?_, ?_⟩ <;>
        · intro _ h
          rw [hway] at h
          cases h
      · intro h
        exact ⟨hvalue, h.fits⟩
    | norm csign =>
      rw [value_sub, norm_exact_iff ha hb haligned c hina hinb hway hL hw,
        norm_right_iff ha hb haligned hina hinb hway, ← value_sub]
      constructor
      · rintro ⟨hright, hfits⟩
        refine ⟨⟨hina, hinb⟩, hfits, ?_, ?_⟩
        · intro csign' h
          rw [hway] at h
          cases h
          exact hright
        · intro _ h
          rw [hway] at h
          cases h
      · intro h
        exact ⟨h.norm csign hway, h.fits⟩
    | rev csign =>
      have hvalue := rev_value_iff ha.sign (subCase_rev ha.sign hb.sign hway)
        (a.aligned (lowExp a b)) (b.aligned (lowExp a b)) (b.overwritten (minExp a b))
        (lost 0 (b.cells (minExp a b)) (a.cells (minExp a b)))
      rw [value_sub, rev_exact_iff ha hb haligned c hina hinb hway hL hw, ← and_assoc,
        rev_right_iff ha hb hina hinb, hvalue, ← value_sub]
      constructor
      · rintro ⟨hright, hfits⟩
        refine ⟨⟨hina, hinb⟩, hfits, ?_, ?_⟩
        · intro _ h
          rw [hway] at h
          cases h
        · intro csign' h
          rw [hway] at h
          cases h
          exact hright
      · intro h
        exact ⟨h.rev csign hway, h.fits⟩
  · refine iff_of_false ?_ fun h => hin h.inRange
    intro h
    exact hin (not_exact_outOfRange ha hb haligned c _ h)

/-- The signs of a delegated difference in the place of a sum. -/
theorem delegate_sum_iff {i j csign : Nat} (hi : i = 1 ∨ i = 0) (h : i + j = 1 ∧ csign = i)
    (A B : Int) : signed csign (A + B) = signed i A + signed j B ↔ B = 0 := by
  obtain ⟨hj, rfl⟩ := h
  rcases hi with rfl | rfl
  · obtain rfl : j = 0 := by omega
    rw [signed_one, signed_one, signed_zero_left]
    omega
  · obtain rfl : j = 1 := by omega
    rw [signed_zero_left, signed_zero_left, signed_one]
    omega

theorem strAdd_exact_iff (ha : a.Operand) (hb : b.Operand) (haligned : Aligned a b) (c : Decimal)
    (hsigns : a.sign ≠ b.sign) : Exact (strAdd a b c) (a.value + b.value) ↔ AddHolds a b := by
  obtain ⟨L, hL, hw⟩ := value_combine a.sign b.sign ha hb haligned
  have hdispatch : strAdd a b c = strSub a b c := by
    rw [strAdd, if_pos]
    have hsa := ha.sign
    have hsb := hb.sign
    omega
  rw [hdispatch]
  by_cases hin : a.InRange (minExp a b) ∧ b.InRange (minExp a b)
  · obtain ⟨hina, hinb⟩ := hin
    cases hway : wayOf a b with
    | delegate csign =>
      have hvalue := delegate_sum_iff ha.sign (subCase_delegate ha.sign hb.sign hway)
        (a.aligned (lowExp a b)) (b.aligned (lowExp a b))
      have hnumber : b.aligned (lowExp a b) = 0 ↔ number b.digits = 0 := by
        rw [Decimal.aligned, mul_eq_zero, or_iff_left (pow_ne_zero _ (by decide)), Nat.cast_eq_zero]
      rw [value_add_signs, delegate_exact_iff ha hb haligned c hina hinb hway hL hw, hvalue, hnumber,
        ← value_add_signs]
      constructor
      · rintro ⟨hzero, hfits⟩
        refine ⟨⟨hina, hinb⟩, hfits, fun _ _ => hzero, ?_⟩
        intro _ h
        rw [hway] at h
        cases h
      · intro h
        exact ⟨h.delegate csign hway, h.fits⟩
    | norm csign => exact absurd (subCase_norm ha.sign hb.sign hway).1 hsigns
    | rev csign =>
      rcases subCase_rev ha.sign hb.sign hway with ⟨hsame, _⟩ | ⟨h0, h1, hc⟩
      · exact absurd hsame hsigns
      · rw [value_add_signs, rev_exact_iff ha hb haligned c hina hinb hway hL hw, ← and_assoc,
          rev_right_iff ha hb hina hinb, ← value_add_signs, h0, h1, hc, signed_zero_left,
          signed_zero_left, signed_one]
        constructor
        · rintro ⟨⟨hdigits, hvalue⟩, hfits⟩
          refine ⟨⟨hina, hinb⟩, hfits, ?_, fun _ _ => ⟨hdigits, by omega⟩⟩
          intro _ h
          rw [hway] at h
          cases h
        · intro h
          obtain ⟨hdigits, hvalue⟩ := h.rev csign hway
          exact ⟨⟨hdigits, by omega⟩, h.fits⟩
  · refine iff_of_false ?_ fun h => hin h.inRange
    intro h
    exact hin (not_exact_outOfRange ha hb haligned c _ h)

/-- **Exactly when a difference is right**, and when the sum of opposite signs is, which is taken
    for a difference. -/
theorem difference_exact_iff (a b c : Decimal) (ha : a.Operand) (hb : b.Operand)
    (haligned : Aligned a b) :
    (Exact (strSub a b c) (a.value - b.value) ↔ SubHolds a b) ∧
      (a.sign ≠ b.sign → (Exact (strAdd a b c) (a.value + b.value) ↔ AddHolds a b)) :=
  ⟨strSub_exact_iff ha hb haligned c, strAdd_exact_iff ha hb haligned c⟩

end Difference

/-- 10000 - 14 borrows through zeros, and comes out right. -/
theorem ten_thousand_less_fourteen :
    Exact (strSub ⟨0, 0, [49, 48, 48, 48, 48]⟩ ⟨0, 0, [49, 52]⟩ ⟨0, 0, []⟩)
      (Decimal.value ⟨0, 0, [49, 48, 48, 48, 48]⟩ - Decimal.value ⟨0, 0, [49, 52]⟩) := by
  apply (difference_exact_iff ⟨0, 0, [49, 48, 48, 48, 48]⟩ ⟨0, 0, [49, 52]⟩ ⟨0, 0, []⟩
    ⟨Or.inr rfl, List.cons_ne_nil _ _, by decide⟩ ⟨Or.inr rfl, List.cons_ne_nil _ _, by decide⟩
    (by unfold Aligned; decide)).1.mpr
  have hway : wayOf ⟨0, 0, [49, 48, 48, 48, 48]⟩ ⟨0, 0, [49, 52]⟩ = .norm 0 := by decide
  refine ⟨by decide, Or.inr ⟨9986, 0, by decide, ?_⟩, ?_, ?_⟩
  · have hleft : Decimal.value ⟨0, 0, [49, 48, 48, 48, 48]⟩ = scaled 10 10000 0 := rfl
    have hright : Decimal.value ⟨0, 0, [49, 52]⟩ = scaled 10 14 0 := rfl
    rw [hleft, hright, ← scaled_sub]
    rfl
  · intro csign h
    rw [hway] at h
    cases h
    exact Or.inl ⟨⟨by decide, by decide, by decide, by decide⟩, by decide, Or.inl rfl⟩
  · intro csign h
    rw [hway] at h
    cases h

/-- 5 - 100 is said to be -105: the borrow does not go through the second zero. -/
theorem five_less_hundred :
    ¬ Exact (strSub ⟨0, 0, [53]⟩ ⟨0, 0, [49, 48, 48]⟩ ⟨0, 0, []⟩)
      (Decimal.value ⟨0, 0, [53]⟩ - Decimal.value ⟨0, 0, [49, 48, 48]⟩) := by
  rintro ⟨d, hd, _, hvalue⟩
  have hresult : strSub ⟨0, 0, [53]⟩ ⟨0, 0, [49, 48, 48]⟩ ⟨0, 0, []⟩ =
    .ok (strNormal, ⟨1, 0, [49, 48, 53]⟩) := rfl
  rw [hresult] at hd
  cases hd
  have hleft : Decimal.value ⟨1, 0, [49, 48, 53]⟩ = scaled 10 (-105) 0 := rfl
  have hfive : Decimal.value ⟨0, 0, [53]⟩ = scaled 10 5 0 := rfl
  have hhundred : Decimal.value ⟨0, 0, [49, 48, 48]⟩ = scaled 10 100 0 := rfl
  rw [hleft, hfive, hhundred, ← scaled_sub, scaled_left_inj (by decide)] at hvalue
  exact absurd hvalue (by decide)

end FreeVMS.Rtl.Num
