import FreeVMS.Rtl.SprintFieldRight

/-!
# Integer conversions of a format

A pass over the specification of an integer prints the field that it asks for, unless the width is a
`*`, an `int` below zero is printed without a sign, blanks go to the right of a prefix, or a signed
operation overflows on the way.
-/

namespace FreeVMS.Rtl.Sprint

/-- The specification of an integer, with or without an `l`. -/
structure NumberSpec where
  field : Field
  conv : IntConv
  long : Bool

namespace NumberSpec

variable (s : NumberSpec) (arg : Nat → Arg) (k : Nat)

def modifier : Option Byte := if s.long then some (Rtl.chr 'l') else none

/-- The specification as it is written, without its `%`. -/
def text : List Byte := s.field.text ++ (s.modifier.toList ++ [s.conv.chr])

def flags : Flags := s.field.flags.foldl Flags.set noFlags

def precisionCount : Count := s.field.precision.getD .absent

/-- The arguments start with `k`; a `*` takes one. -/
def width : Int := s.field.width.value arg k

def precision : Int := s.precisionCount.value arg (s.field.width.next k)

/-- The argument that is printed. -/
def valueArg : Nat := s.precisionCount.next (s.field.width.next k)

def value : Int := s.conv.value s.long (arg (s.valueArg k))

def sign : List Byte := signText s.flags s.conv (s.value arg k)

def numberPrefix : List Byte := prefixText s.flags s.conv.base

def digits : List Byte := digitText s.conv.digits s.conv.base (s.value arg k).natAbs

/-- The field that the specification asks for. -/
def output : List Byte :=
  fieldText s.flags (s.width arg k) (s.precision arg k) (s.sign arg k) s.numberPrefix (s.digits arg k)

/-- Wherever the specification stands, and wherever the output is, a pass prints the field, takes the
    arguments of the specification and leaves off behind it. -/
def Right : Prop :=
  ∀ (e : Env) (fuel : Nat) (fmt : Format) (i : Nat) (numpr : Int) (o : Out), e.arg = arg →
    Holds fmt.c i (Rtl.chr '%' :: s.text) → i + s.text.length + 1 ≤ fmt.lengthTrim →
    s.text.length < fuel → o.argPtr = k → (s.output arg k).length ≤ o.size →
    ∃ numpr', pass e fuel fmt i numpr o =
      .ok ((i + s.text.length + 1, numpr'), (o.print (s.output arg k)).setArg (s.valueArg k + 1))

/-- The width and the precision are numbers that an `int` holds, no `*` is the width, and so on. -/
structure Fits : Prop where
  plain : s.field.width ≠ .star
  width : s.width arg k < 2 ^ 31
  precision : s.precision arg k < 2 ^ 31
  /-- an `int` without a sign is not below zero -/
  unsigned : s.conv.signed = false → s.long = false → 0 ≤ (arg (s.valueArg k)).int.toInt
  /-- a `long` is not the least one -/
  negation : s.conv.signed = true → s.long = true → (arg (s.valueArg k)).long.toInt ≠ -2 ^ 63
  size : (s.sign arg k).length + s.numberPrefix.length +
    max ((s.digits arg k).length : Int) (s.precision arg k) < 2 ^ 31
  /-- no blanks are to the right of a number with a prefix -/
  left : s.flags.left = true → s.numberPrefix ≠ [] →
    s.width arg k ≤ (s.sign arg k).length + max ((s.digits arg k).length : Int) (s.precision arg k)

/-! ### What the code makes of it -/

/-- `uval` as it is read. -/
def uval : BitVec 64 :=
  if s.long then (arg (s.valueArg k)).long else (arg (s.valueArg k)).int.signExtend 64

/-- The number whose digits are printed. -/
def shown : Nat :=
  if s.conv.signed then (s.uval arg k).toInt.natAbs else (s.uval arg k).toNat

def shownDigits : List Byte := digitText s.conv.digits s.conv.base (s.shown arg k)

/-- What the code prints for it. -/
def printed : List Byte :=
  printedText s.flags (s.width arg k) (s.precision arg k) (s.sign arg k) s.numberPrefix
    (s.shownDigits arg k)

def pieces : Pieces := ⟨s.field.flags, s.field.width, s.precisionCount, s.modifier, s.conv.chr⟩

/-- The specification as the code has it. -/
def spec : Spec := ⟨s.flags, s.width arg k, s.precision arg k, s.long, s.conv.chr⟩

theorem base_cases : s.conv.base = 2 ∨ s.conv.base = 8 ∨ s.conv.base = 10 ∨ s.conv.base = 16 := by
  cases s.conv <;> decide

theorem toInt_uval : (s.uval arg k).toInt =
    if s.long then (arg (s.valueArg k)).long.toInt else (arg (s.valueArg k)).int.toInt := by
  rw [uval]
  split
  · rfl
  · exact BitVec.toInt_signExtend_of_le (by decide)

theorem value_of_signed (h : s.conv.signed = true) : s.value arg k = (s.uval arg k).toInt := by
  rw [value, IntConv.value, if_pos h, toInt_uval]

/-- Without a sign the number that is shown is the value unless it is an `int` below zero. -/
theorem shown_eq_iff : s.shown arg k = (s.value arg k).natAbs ↔
    (s.conv.signed = false → s.long = false → 0 ≤ (arg (s.valueArg k)).int.toInt) := by
  cases hsigned : s.conv.signed with
  | true => simp [shown, hsigned, value_of_signed]
  | false =>
    cases hlong : s.long with
    | true => simp [shown, value, IntConv.value, uval, hsigned, hlong]
    | false =>
      have hint := (arg (s.valueArg k)).int.isLt
      have hwide : ((arg (s.valueArg k)).int.signExtend 64).toInt = (arg (s.valueArg k)).int.toInt :=
        BitVec.toInt_signExtend_of_le (by decide)
      have hlt := ((arg (s.valueArg k)).int.signExtend 64).isLt
      rw [BitVec.toInt_eq_toNat_cond, BitVec.toInt_eq_toNat_cond] at hwide
      simp only [shown, value, IntConv.value, uval, hsigned, hlong, Bool.false_eq_true, if_false,
        Int.natAbs_natCast, true_implies]
      rw [BitVec.toInt_eq_toNat_cond]
      split at hwide
      · split at hwide
        · omega
        · omega
      · split at hwide
        · omega
        · omega

theorem sign_eq : (if s.conv.signed then signChar s.flags (s.uval arg k) else none).toList =
    s.sign arg k := by
  rw [sign, signText]
  cases hsigned : s.conv.signed with
  | false => rfl
  | true =>
    rw [if_pos rfl, if_pos rfl, s.value_of_signed arg k hsigned, signChar]
    by_cases hneg : (s.uval arg k).toInt < 0
    · have hnot : ¬ 0 ≤ (s.uval arg k).toInt := by omega
      simp [hneg, hnot]
    · have hpos : 0 ≤ (s.uval arg k).toInt := by omega
      cases hplus : s.flags.sign with
      | true => simp [hneg, hpos]
      | false =>
        cases hspace : s.flags.space with
        | true => simp [hneg, hpos]
        | false => simp [hneg]

variable {s arg k} {e : Env} {fuel : Nat}

/-- The number in the field. -/
theorem sign_notMem : ∀ c ∈ s.sign arg k, c ∉ s.conv.digits := by
  have hall : ∀ c ∈ [Rtl.chr '-', Rtl.chr '+', Rtl.chr ' '], c ∉ s.conv.digits := by
    cases s.conv <;> decide
  intro c hc
  refine hall c ?_
  rw [sign, signText] at hc
  split at hc
  · split at hc
    · simp_all
    · split at hc
      · simp_all
      · split at hc
        · simp_all
        · cases hc
  · cases hc

theorem numberIn_output : numberIn s.conv.digits s.conv.base (s.output arg k) = (s.value arg k).natAbs :=
  numberIn_shape sign_notMem s.flags _ (fieldText_shape _ _ _ _ _ _)

theorem magnitude_eq (h : s.conv.signed = true → (s.uval arg k).toInt ≠ -2 ^ 63) :
    ∃ w, magnitude e s.conv.signed (s.uval arg k) = pure w ∧ w.toNat = s.shown arg k := by
  rw [shown, magnitude]
  have hlt := (s.uval arg k).isLt
  have htoInt := BitVec.toInt_eq_toNat_cond (s.uval arg k)
  by_cases hneg : s.conv.signed = true ∧ (s.uval arg k).toInt < 0
  · have hmin := h hneg.1
    rw [if_pos hneg, if_pos hneg.1]
    split at htoInt
    · omega
    · refine ⟨BitVec.ofInt 64 (-(s.uval arg k).toInt), ?_, ?_⟩
      · rw [long_eq e (by omega)]
        rfl
      · rw [BitVec.toNat_ofInt]
        omega
  · rw [if_neg hneg]
    refine ⟨s.uval arg k, rfl, ?_⟩
    split
    · rename_i hsigned
      have hpos : ¬ (s.uval arg k).toInt < 0 := fun hlt => hneg ⟨hsigned, hlt⟩
      split at htoInt
      · omega
      · omega
    · rfl

/-! ### A pass -/

theorem pieces?_eq (h : s.field.width ≠ .star) : pieces? s.text = some (s.pieces, []) := by
  refine s.field.pieces?_text h ?_ s.conv.chr_isLetter []
  intro c hc
  rw [modifier] at hc
  split at hc
  · obtain rfl := Option.some.inj hc
    decide
  · cases hc

/-- A pass from the `%` on. -/
theorem pass_eq {fmt : Format} {i : Nat} {o : Out} {numpr : Int} (h : s.field.width ≠ .star)
    (hholds : Holds fmt.c i (Rtl.chr '%' :: s.text))
    (hend : i + s.text.length + 1 ≤ fmt.lengthTrim) (hfuel : s.text.length < fuel)
    (hsize : o.size ≠ 0) :
    pass e fuel fmt i numpr o = (do
      let spec ← s.pieces.eval e fuel
      let numpr ← conversion e fuel spec numpr
      return (i + s.text.length + 1, numpr) : Print (Nat × Int)) o := by
  obtain ⟨j, hj, -, hpass⟩ := pass_spec e (i := i) fuel (u := []) List.not_mem_nil
    (pieces?_eq h) hholds (by rw [List.length_nil]; omega)
    (by rw [List.nil_append, List.length_cons]; omega)
  obtain rfl : j = i + s.text.length + 1 := hj
  have htext : textPass fuel [] o = .ok ((), o) := by
    cases fuel with
    | zero => exact absurd hfuel (Nat.not_lt_zero _)
    | succ fuel =>
      have htest : sizeTest o = .ok ((), o) := if_neg hsize
      rw [textPass, bind_of_ok htest]
      rfl
  rw [hpass, specPass]
  simp only [bind_assoc]
  exact bind_of_ok htext _

theorem width_text_le : s.field.width.digits.length ≤ s.text.length := by
  have hle : s.field.width.digits.length ≤ s.field.width.text.length := by
    cases s.field.width with
    | absent => exact Nat.le_refl _
    | star => exact Nat.zero_le _
    | decimal ds => exact Nat.le_refl _
  simp only [text, Field.text, List.length_append]
  omega

theorem precision_text_le : s.precisionCount.digits.length ≤ s.text.length := by
  have hle : s.precisionCount.digits.length ≤ (precisionText s.field.precision).length := by
    rw [precisionCount]
    cases s.field.precision with
    | none => exact Nat.zero_le _
    | some n =>
      cases n with
      | absent => exact Nat.zero_le _
      | star => exact Nat.zero_le _
      | decimal ds => exact Nat.le_succ _
  simp only [text, Field.text, List.length_append]
  omega

theorem flags_text_le : s.field.flags.length ≤ s.text.length := by
  simp only [text, Field.text, List.length_append]
  omega

section

variable (harg : e.arg = arg) (hfuel : s.text.length < fuel)

include harg hfuel

theorem eval_prints (hw : s.width arg k < 2 ^ 31) (hp : s.precision arg k < 2 ^ 31) :
    Prints k [] (s.spec arg k) (s.valueArg k) (s.pieces.eval e fuel) := by
  subst harg
  have hflags := s.flags_text_le
  have hwidth := s.width_text_le
  have hprecision := s.precision_text_le
  have hlong : decide (s.modifier = some (Rtl.chr 'l')) = s.long := by
    rw [modifier]
    cases s.long <;> decide
  have hrounds : rounds fuel s.pieces.flags.length = pure () :=
    if_pos (Nat.lt_of_le_of_lt hflags hfuel)
  rw [Pieces.eval, hrounds, pure_bind]
  refine (Sprint.eval_prints s.field.width_isNumeral (by omega) k hw).bind (t := []) ?_
  refine (Sprint.eval_prints s.field.precision_isNumeral (Nat.lt_of_le_of_lt hprecision hfuel) _ hp).bind
    (t := []) ?_
  have hspec : s.spec e.arg k = ⟨s.flags, s.width e.arg k, s.precision e.arg k,
      decide (s.modifier = some (Rtl.chr 'l')), s.conv.chr⟩ := by
    rw [hlong]
    rfl
  rw [hspec]
  exact .pure _ _

theorem eval_undefined (he : ∀ x, e.overflow.int x = none)
    (h : 2 ^ 31 ≤ s.width arg k ∨ 2 ^ 31 ≤ s.precision arg k) :
    Undefined k (s.pieces.eval e fuel) := by
  subst harg
  have hflags := s.flags_text_le
  have hwidth := s.width_text_le
  have hprecision := s.precision_text_le
  have hrounds : rounds fuel s.pieces.flags.length = pure () :=
    if_pos (Nat.lt_of_le_of_lt hflags hfuel)
  rw [Pieces.eval, hrounds, pure_bind]
  by_cases hw : s.width e.arg k < 2 ^ 31
  · refine (Sprint.eval_prints s.field.width_isNumeral (by omega) k hw).bind_undefined ?_
    refine Undefined.bind ?_ _
    exact Sprint.eval_undefined s.field.precision_isNumeral (Nat.lt_of_le_of_lt hprecision hfuel) _ he
      (h.resolve_left (by omega))
  · exact (Sprint.eval_undefined s.field.width_isNumeral (by omega) k he (Int.not_lt.mp hw)).bind _

end

theorem readNumber_prints (harg : e.arg = arg) :
    Prints (s.valueArg k) [] (s.uval arg k) (s.valueArg k + 1) (readNumber e s.long) := by
  subst harg
  exact (nextArg_prints e _).bind (.pure _ _)

theorem conversion_eq (numpr : Int) : conversion e fuel (s.spec arg k) numpr = (do
    let uval ← readNumber e s.long
    printNumber e s.flags (s.width arg k) (s.precision arg k) s.conv.base s.conv.digits s.conv.signed
      uval) :=
  conversion_number e fuel rfl numpr

section

variable {fmt : Format} {i : Nat} {o : Out} (numpr : Int) (h : s.field.width ≠ .star)
  (harg : e.arg = arg) (hholds : Holds fmt.c i (Rtl.chr '%' :: s.text))
  (hend : i + s.text.length + 1 ≤ fmt.lengthTrim) (hfuel : s.text.length < fuel) (ho : o.argPtr = k)
  (hne : o.size ≠ 0)

include h harg hholds hend hfuel ho hne

/-- Where nothing overflows. -/
theorem pass_prints (hw : s.width arg k < 2 ^ 31) (hp : s.precision arg k < 2 ^ 31)
    (hneg : s.conv.signed = true → (s.uval arg k).toInt ≠ -2 ^ 63)
    (hsize : (s.sign arg k).length + s.numberPrefix.length +
      max ((s.shownDigits arg k).length : Int) (s.precision arg k) < 2 ^ 31)
    (hroom : (s.printed arg k).length ≤ o.size) :
    ∃ numpr', pass e fuel fmt i numpr o = .ok ((i + s.text.length + 1, numpr'),
      (o.print (s.printed arg k)).setArg (s.valueArg k + 1)) := by
  obtain ⟨w, hmag, hshown⟩ := magnitude_eq (e := e) hneg
  have hdigits : digitText s.conv.digits s.conv.base w.toNat = s.shownDigits arg k := by
    rw [hshown]
    rfl
  obtain ⟨v, hv⟩ := printNumber_prints e s.flags s.conv.digits s.base_cases rfl hmag hdigits
    ⟨s.field.width.le_value arg k h, hw⟩ (by rw [s.sign_eq]; exact hsize) (s.valueArg k + 1)
  rw [s.sign_eq] at hv
  have hconv : Prints (s.valueArg k) (s.printed arg k) v (s.valueArg k + 1)
      (conversion e fuel (s.spec arg k) numpr) := by
    rw [conversion_eq]
    exact (readNumber_prints harg).bind (t := []) hv
  have hreturn : Prints (s.valueArg k) (s.printed arg k ++ []) (i + s.text.length + 1, v)
      (s.valueArg k + 1) (do
        let numpr ← conversion e fuel (s.spec arg k) numpr
        return (i + s.text.length + 1, numpr)) := hconv.bind (.pure _ _)
  rw [List.append_nil] at hreturn
  refine ⟨v, ?_⟩
  rw [pass_eq h hholds hend hfuel hne]
  exact (eval_prints harg hfuel hw hp).bind (t := []) hreturn o ho hroom

theorem pass_undefined_eval (he : ∀ x, e.overflow.int x = none)
    (hbig : 2 ^ 31 ≤ s.width arg k ∨ 2 ^ 31 ≤ s.precision arg k) :
    pass e fuel fmt i numpr o = .error .undefined := by
  rw [pass_eq h hholds hend hfuel hne]
  exact (eval_undefined harg hfuel he hbig).bind _ o ho

theorem pass_undefined_number (hw : s.width arg k < 2 ^ 31) (hp : s.precision arg k < 2 ^ 31)
    (hnumber : printNumber e s.flags (s.width arg k) (s.precision arg k) s.conv.base s.conv.digits
      s.conv.signed (s.uval arg k) = halt .undefined) :
    pass e fuel fmt i numpr o = .error .undefined := by
  have hconv : Undefined (s.valueArg k) (conversion e fuel (s.spec arg k) numpr) := by
    rw [conversion_eq]
    exact (readNumber_prints harg).bind_undefined (undefined_of_eq hnumber _)
  rw [pass_eq h hholds hend hfuel hne]
  exact (eval_prints harg hfuel hw hp).bind_undefined (hconv.bind _) o ho

end

/-- The least `long` has no negation. -/
theorem number_undefined_min (he : ∀ x, e.overflow.long x = none) (hsigned : s.conv.signed = true)
    (hmin : (s.uval arg k).toInt = -2 ^ 63) (f : Flags) (width precision : Int) (base : Nat)
    (digits : List Byte) :
    printNumber e f width precision base digits s.conv.signed (s.uval arg k) = halt .undefined := by
  have hmag : magnitude e s.conv.signed (s.uval arg k) = halt .undefined := by
    rw [magnitude, if_pos ⟨hsigned, by omega⟩, Sprint.long, if_neg (by omega), he]
    rfl
  rw [printNumber, hmag]
  rfl

theorem number_undefined_size (he : ∀ x, e.overflow.int x = none)
    (hneg : s.conv.signed = true → (s.uval arg k).toInt ≠ -2 ^ 63) (width : Int)
    (hp : s.precision arg k < 2 ^ 31)
    (hsize : 2 ^ 31 ≤ (s.sign arg k).length + s.numberPrefix.length +
      max ((s.shownDigits arg k).length : Int) (s.precision arg k)) :
    printNumber e s.flags width (s.precision arg k) s.conv.base s.conv.digits s.conv.signed
      (s.uval arg k) = halt .undefined := by
  obtain ⟨w, hmag, hshown⟩ := magnitude_eq (e := e) hneg
  have hlen : (digitChars s.conv.digits s.conv.base w.toNat).length = (s.shownDigits arg k).length := by
    rw [hshown, shownDigits, digitText, List.length_reverse]
  have hfew : (digitChars s.conv.digits s.conv.base w.toNat).length ≤ 64 := by
    rw [length_digitChars]
    exact length_digitsOf_le s.conv.two_le_base w.isLt
  have hundefined : printedSize e s.flags s.conv.base
      (if s.conv.signed then signChar s.flags (s.uval arg k) else none)
      (digitChars s.conv.digits s.conv.base w.toNat).length (s.precision arg k) = halt .undefined :=
    printedSize_undefined e he s.base_cases (by omega) (by omega)
      (by rw [s.sign_eq, hlen]; exact hsize)
  rw [printNumber, hmag, pure_bind, convert_bits _ s.conv.two_le_base w.isLt, pure_bind, hundefined]
  rfl

/-! ### Where it is right -/

theorem negation_iff : (s.conv.signed = true → (s.uval arg k).toInt ≠ -2 ^ 63) ↔
    (s.conv.signed = true → s.long = true → (arg (s.valueArg k)).long.toInt ≠ -2 ^ 63) := by
  rw [toInt_uval]
  cases s.long with
  | true => simp
  | false =>
    have hlow : -2 ^ 31 ≤ (arg (s.valueArg k)).int.toInt := BitVec.le_toInt _
    have hne : (arg (s.valueArg k)).int.toInt ≠ -2 ^ 63 := by omega
    rw [if_neg (by decide)]
    exact ⟨fun _ _ hlong => absurd hlong (by decide), fun _ _ => hne⟩

theorem shownDigits_eq (h : s.shown arg k = (s.value arg k).natAbs) :
    s.shownDigits arg k = s.digits arg k := by
  rw [shownDigits, h]
  rfl

theorem output_ne_nil (s : NumberSpec) (arg : Nat → Arg) (k : Nat) : (s.output arg k).length ≠ 0 := by
  have hlen := length_fieldText s.flags (s.width arg k) (s.precision arg k) (s.sign arg k)
    s.numberPrefix (s.digits arg k)
  have hdigits : (s.digits arg k).length ≠ 0 := by
    rw [digits, digitText, List.length_reverse, length_digitChars]
    exact mt List.length_eq_zero_iff.mp (digitsOf_ne_nil _ _)
  rw [output]
  omega

theorem Fits.right (h : s.Fits arg k) : s.Right arg k := by
  intro e fuel fmt i numpr o harg hholds hend hfuel ho hroom
  have hshown := s.shown_eq_iff arg k |>.mpr h.unsigned
  have hdigits := shownDigits_eq hshown
  have hprinted : s.printed arg k = s.output arg k := by
    rw [printed, hdigits]
    exact (printedText_eq_iff _ _ _ _ _ _).mpr h.left
  have hne : o.size ≠ 0 := by
    have hout := s.output_ne_nil arg k
    omega
  obtain ⟨numpr', hrun⟩ := pass_prints numpr h.plain harg hholds hend hfuel ho hne h.width h.precision
    (negation_iff.mpr h.negation) (by rw [hdigits]; exact h.size) (by rw [hprinted]; exact hroom)
  exact ⟨numpr', hprinted ▸ hrun⟩

/-! ### A place for a specification -/

/-- No overflow is defined. -/
def strict (arg : Nat → Arg) : Env where
  arg := arg
  overflow := ⟨fun _ => none, fun _ => none⟩
  floating :=
    { nonneg _ := true, negative _ := false, oneOrMore _ := false, neg := id, toUlong _ := none,
      subUlong x _ := x, timesTen := id }

variable (s arg k)

/-- The specification alone. -/
def alone : Format where
  lengthTrim := s.text.length + 1
  c i := (Rtl.chr '%' :: s.text).getD i 0

def roomFor (n : Nat) : Out := ⟨n, 0, 0, k, []⟩

theorem holds_alone : Holds s.alone.c 0 (Rtl.chr '%' :: s.text) := by
  have hall (t : List Byte) (c : Nat → Byte) (i : Nat) (h : ∀ j, c (i + j) = t.getD j 0) :
      Holds c i t := by
    induction t generalizing i with
    | nil => trivial
    | cons x t ih =>
      refine ⟨h 0, ih (i + 1) fun j => ?_⟩
      rw [Nat.add_assoc, Nat.add_comm 1, h (j + 1)]
      rfl
  exact hall _ _ 0 fun j => by rw [Nat.zero_add]; rfl

variable {s arg k}

theorem alone_end (s : NumberSpec) : 0 + s.text.length + 1 ≤ s.alone.lengthTrim := by
  rw [Nat.zero_add]
  exact Nat.le_refl _

/-- What a right pass does with the specification alone. -/
theorem Right.alone (h : s.Right arg k) {n : Nat} (hroom : (s.output arg k).length ≤ n) :
    ∃ numpr', pass (strict arg) (s.text.length + 1) s.alone 0 0 (roomFor k n) =
      .ok ((0 + s.text.length + 1, numpr'),
        ((roomFor k n).print (s.output arg k)).setArg (s.valueArg k + 1)) :=
  h (strict arg) _ _ 0 0 _ rfl s.holds_alone s.alone_end (Nat.lt_succ_self _) rfl hroom

theorem Right.plain (h : s.Right arg k) : s.field.width ≠ .star := by
  intro hstar
  obtain ⟨numpr', hrun⟩ := h.alone (Nat.le_refl _)
  obtain ⟨j, hj, -, hpass⟩ := pass_spec (strict arg) (s.text.length + 1) (u := []) List.not_mem_nil
    (s.field.pieces?_star hstar _) s.holds_alone (Nat.succ_pos _)
    (by rw [List.nil_append, Nat.zero_add]; exact Nat.le_succ _)
  have hlt : j < 0 + s.text.length + 1 := by
    simp only [text, Field.text, List.nil_append, List.length_cons, List.length_append,
      List.length_nil] at hj ⊢
    omega
  rw [hpass] at hrun
  cases hm : specPass (strict arg) (s.text.length + 1) []
      ⟨s.field.flags, .star, .absent, none, Rtl.chr '*'⟩ 0 (roomFor k (s.output arg k).length) with
  | error halt =>
    rw [bind_of_error hm] at hrun
    cases hrun
  | ok r =>
    rw [bind_of_ok hm] at hrun
    have hpos : j = 0 + s.text.length + 1 :=
      congrArg (fun r : (Nat × Int) × Out => r.1.1) (Except.ok.inj hrun)
    omega

/-- No operation of a right pass is out of range. -/
theorem Right.inRange (h : s.Right arg k) : s.width arg k < 2 ^ 31 ∧ s.precision arg k < 2 ^ 31 ∧
    (s.conv.signed = true → (s.uval arg k).toInt ≠ -2 ^ 63) ∧
    (s.sign arg k).length + s.numberPrefix.length +
      max ((s.shownDigits arg k).length : Int) (s.precision arg k) < 2 ^ 31 := by
  have hplain := h.plain
  have hfuel : s.text.length < s.text.length + 1 := Nat.lt_succ_self _
  have hargs : (strict arg).arg = arg := rfl
  have hat : (roomFor k (s.output arg k).length).argPtr = k := rfl
  have hne : (roomFor k (s.output arg k).length).size ≠ 0 := s.output_ne_nil arg k
  obtain ⟨numpr', hrun⟩ := h.alone (Nat.le_refl _)
  have hbig : ¬ (2 ^ 31 ≤ s.width arg k ∨ 2 ^ 31 ≤ s.precision arg k) := by
    intro hbig
    rw [pass_undefined_eval (e := strict arg) 0 hplain hargs s.holds_alone s.alone_end hfuel hat hne
      (fun _ => rfl) hbig] at hrun
    cases hrun
  rw [not_or, Int.not_le, Int.not_le] at hbig
  obtain ⟨hw, hp⟩ := hbig
  have hneg : s.conv.signed = true → (s.uval arg k).toInt ≠ -2 ^ 63 := by
    intro hsigned hmin
    rw [pass_undefined_number (e := strict arg) 0 hplain hargs s.holds_alone s.alone_end hfuel hat hne
      hw hp (number_undefined_min (fun _ => rfl) hsigned hmin _ _ _ _ _)] at hrun
    cases hrun
  refine ⟨hw, hp, hneg, ?_⟩
  by_contra hlarge
  rw [pass_undefined_number (e := strict arg) 0 hplain hargs s.holds_alone s.alone_end hfuel hat hne
    hw hp (number_undefined_size (fun _ => rfl) hneg _ hp (Int.not_lt.mp hlarge))] at hrun
  cases hrun

theorem Right.printed_eq (h : s.Right arg k) : s.printed arg k = s.output arg k := by
  obtain ⟨hw, hp, hneg, hsize⟩ := h.inRange
  obtain ⟨n, hn⟩ : ∃ n, n = (s.output arg k).length + (s.printed arg k).length := ⟨_, rfl⟩
  have hargs : (strict arg).arg = arg := rfl
  have hout := s.output_ne_nil arg k
  have hne : (roomFor k n).size ≠ 0 := by
    show n ≠ 0
    omega
  have hroom : (s.printed arg k).length ≤ (roomFor k n).size := by
    show (s.printed arg k).length ≤ n
    omega
  obtain ⟨numpr', hrun⟩ := h.alone (n := n) (by omega)
  obtain ⟨numpr'', hprints⟩ := pass_prints (e := strict arg) (o := roomFor k n) 0 h.plain hargs
    s.holds_alone s.alone_end (Nat.lt_succ_self _) rfl hne hw hp hneg hsize hroom
  rw [hrun] at hprints
  have hwritten := congrArg (fun r : (Nat × Int) × Out => r.2.written.map Write.ch)
    (Except.ok.inj hprints)
  simpa [Out.setArg, Out.print_written, roomFor] using hwritten.symm

theorem Right.fits (h : s.Right arg k) : s.Fits arg k := by
  obtain ⟨hw, hp, hneg, hsize⟩ := h.inRange
  have htext := h.printed_eq
  -- the digits decide which number was shown
  have hshown : s.shown arg k = (s.value arg k).natAbs := by
    have hnumber : numberIn s.conv.digits s.conv.base (s.printed arg k) = s.shown arg k :=
      numberIn_shape sign_notMem s.flags _ (printedText_shape _ _ _ _ _ _)
    rw [← hnumber, htext, numberIn_output]
  have hdigits := shownDigits_eq hshown
  rw [hdigits] at hsize
  rw [printed, hdigits] at htext
  exact ⟨h.plain, hw, hp, (s.shown_eq_iff arg k).mp hshown, negation_iff.mp hneg, hsize,
    (printedText_eq_iff _ _ _ _ _ _).mp htext⟩

end NumberSpec

/-- When an integer field is printed as it should be. -/
theorem integer_field_iff (s : NumberSpec) (arg : Nat → Arg) (k : Nat) :
    s.Right arg k ↔ s.Fits arg k :=
  ⟨NumberSpec.Right.fits, NumberSpec.Fits.right⟩

/-- `%u` without flags, a width or a precision. -/
def plainUnsigned : NumberSpec where
  field :=
    { flags := [], width := .absent, precision := none, flags_isFlag := by decide,
      width_isNumeral := trivial, width_head := by decide, precision_isNumeral := trivial }
  conv := .u
  long := false

/-- An `int` of -1 is printed with twenty digits. -/
theorem minus_one_unsigned : ¬ plainUnsigned.Right (fun _ => ⟨-1, 0, 0, 0, []⟩) 0 := by
  intro h
  have hnonneg := h.fits.unsigned rfl rfl
  revert hnonneg
  decide

end FreeVMS.Rtl.Sprint
