import FreeVMS.Rtl.SprintPrints

/-!
# The field of a number

`fieldText` is the field that a width, a precision and flags ask for.  The code prints it, but for one
case: to the right of a number that it has written a prefix for, it pads as if there were no prefix.
-/

namespace FreeVMS.Rtl.Sprint

/-! ### Integer conversions -/

inductive IntConv where
  | b
  | o
  | x
  | X
  | d
  | i
  | u
deriving DecidableEq, Repr

namespace IntConv

def chr : IntConv → Byte
  | b => Rtl.chr 'b'
  | o => Rtl.chr 'o'
  | x => Rtl.chr 'x'
  | X => Rtl.chr 'X'
  | d => Rtl.chr 'd'
  | i => Rtl.chr 'i'
  | u => Rtl.chr 'u'

def base : IntConv → Nat
  | b => 2
  | o => 8
  | x | X => 16
  | d | i | u => 10

def digits : IntConv → List Byte
  | b => text "01"
  | o => text "01234567"
  | x => text "0123456789abcdef"
  | X => text "0123456789ABCDEF"
  | d | i | u => text "0123456789"

def signed : IntConv → Bool
  | d | i => true
  | _ => false

theorem chr_isLetter (n : IntConv) : IsLetter n.chr := by
  cases n <;> decide

theorem two_le_base (n : IntConv) : 2 ≤ n.base := by
  cases n <;> decide

/-- The value of the argument: without a sign an `int` is taken as 32 bits. -/
def value (n : IntConv) (long : Bool) (a : Arg) : Int :=
  if n.signed then if long then a.long.toInt else a.int.toInt
  else if long then a.long.toNat else a.int.toNat

end IntConv

theorem conversion_number (e : Env) (fuel : Nat) {s : Spec} {n : IntConv} (h : s.conv = n.chr)
    (numpr : Int) :
    conversion e fuel s numpr = (do
      let uval ← readNumber e s.long
      printNumber e s.flags s.width s.precision n.base n.digits n.signed uval) := by
  cases n <;> simp +decide [conversion, h, IntConv.chr, IntConv.base, IntConv.digits, IntConv.signed]

/-! ### What a field is -/

/-- A field of a sign, a prefix and digits, `width` wide, with `precision` digits. -/
def fieldText (f : Flags) (width precision : Int) (s p d : List Byte) : List Byte :=
  let fill := (width - (s.length + p.length + max (d.length : Int) precision)).toNat
  let zeros := (precision - d.length).toNat
  if f.left then
    s ++ (p ++ (List.replicate zeros (chr '0') ++ (d ++ List.replicate fill (chr ' '))))
  else if f.zero then s ++ (p ++ (List.replicate (fill + zeros) (chr '0') ++ d))
  else List.replicate fill (chr ' ') ++ (s ++ (p ++ (List.replicate zeros (chr '0') ++ d)))

theorem length_fieldText (f : Flags) (width precision : Int) (s p d : List Byte) :
    ((fieldText f width precision s p d).length : Int) =
      max width (s.length + p.length + max (d.length : Int) precision) := by
  rw [fieldText]
  split
  · simp only [List.length_append, List.length_replicate]
    omega
  · split
    · simp only [List.length_append, List.length_replicate]
      omega
    · simp only [List.length_append, List.length_replicate]
      omega

/-- The sign character: only signed conversions have one. -/
def signText (f : Flags) (n : IntConv) (value : Int) : List Byte :=
  if n.signed then
    if value < 0 then [chr '-']
    else if f.sign then [chr '+']
    else if f.space then [chr ' ']
    else []
  else []

def prefixText (f : Flags) (base : Nat) : List Byte := if f.alternate then prefixOf base else []

/-- The digits of a number, the highest first. -/
def digitText (digits : List Byte) (base value : Nat) : List Byte :=
  (digitChars digits base value).reverse

/-- The number that the digits in a text stand for. -/
def numberIn (digits : List Byte) (base : Nat) (t : List Byte) : Nat :=
  (t.filter digits.contains).foldl (fun v c => v * base + digits.idxOf c) 0

/-! ### What is printed -/

/-- To the right of a number the code forgets the prefix. -/
def printedText (f : Flags) (width precision : Int) (s p d : List Byte) : List Byte :=
  if f.left then
    s ++ (p ++ (List.replicate (precision - d.length).toNat (chr '0') ++ (d ++
      List.replicate (width - (s.length + max (d.length : Int) precision)).toNat (chr ' '))))
  else fieldText f width precision s p d

theorem printedText_eq_iff (f : Flags) (width precision : Int) (s p d : List Byte) :
    printedText f width precision s p d = fieldText f width precision s p d ↔
      (f.left = true → p ≠ [] → width ≤ s.length + max (d.length : Int) precision) := by
  rw [printedText]
  by_cases hleft : f.left = true
  · rw [if_pos hleft, fieldText, if_pos hleft]
    simp only [List.append_cancel_left_eq, List.replicate_left_inj, hleft, true_implies,
      ← List.length_pos_iff]
    omega
  · simp [hleft]

/-- Blanks on one side at most, and zeros between the prefix and the digits. -/
theorem fieldText_shape (f : Flags) (width precision : Int) (s p d : List Byte) :
    ∃ i z j, fieldText f width precision s p d =
      (List.replicate i (chr ' ') ++ (s ++ p)) ++
        (List.replicate z (chr '0') ++ (d ++ List.replicate j (chr ' '))) := by
  rw [fieldText]
  split
  · exact ⟨0, _, _, (List.append_assoc s p _).symm⟩
  · split
    · exact ⟨0, _, 0, by simp only [List.replicate_zero, List.nil_append, List.append_nil,
        List.append_assoc]; rfl⟩
    · exact ⟨_, _, 0, by simp only [List.replicate_zero, List.append_nil, List.append_assoc]; rfl⟩

theorem printedText_shape (f : Flags) (width precision : Int) (s p d : List Byte) :
    ∃ i z j, printedText f width precision s p d =
      (List.replicate i (chr ' ') ++ (s ++ p)) ++
        (List.replicate z (chr '0') ++ (d ++ List.replicate j (chr ' '))) := by
  rw [printedText]
  split
  · exact ⟨0, _, _, (List.append_assoc s p _).symm⟩
  · exact fieldText_shape f width precision s p d

section

variable (e : Env)

theorem int_eq {x : Int} (h : -2 ^ 31 ≤ x ∧ x < 2 ^ 31) : int e x = pure x := if_pos h

theorem long_eq {x : Int} (h : -2 ^ 63 ≤ x ∧ x < 2 ^ 63) : long e x = pure x := if_pos h

theorem int_undefined {x : Int} (he : e.overflow.int x = none) (h : ¬ (-2 ^ 31 ≤ x ∧ x < 2 ^ 31)) :
    int e x = halt .undefined := by
  rw [int, if_neg h, he]
  rfl

theorem signSize_eq (signch : Option Byte) (numpr : Int) :
    signSize e signch numpr =
      if signch.toList = [] then pure numpr else int e (numpr + signch.toList.length) := by
  cases signch with
  | none => rfl
  | some ch => rfl

theorem prefixSize_eq {f : Flags} {base : Nat} (hb : base = 2 ∨ base = 8 ∨ base = 10 ∨ base = 16)
    (numpr : Int) : prefixSize e f base numpr =
      if prefixText f base = [] then pure numpr else int e (numpr + (prefixText f base).length) := by
  rw [prefixSize, prefixText]
  by_cases halt : f.alternate = true
  · rw [if_pos halt, if_pos halt]
    rcases hb with rfl | rfl | rfl | rfl
    · rfl
    · rfl
    · rfl
    · rfl
  · rw [if_neg halt, if_neg halt]
    rfl

section

variable {f : Flags} {base : Nat} {signch : Option Byte} {numdigits precision : Int}

/-- The size without any padding but that of the precision. -/
theorem printedSize_eq (hb : base = 2 ∨ base = 8 ∨ base = 10 ∨ base = 16) (h0 : 0 ≤ numdigits)
    (h : signch.toList.length + (prefixText f base).length + max numdigits precision < 2 ^ 31) :
    printedSize e f base signch numdigits precision =
      pure (signch.toList.length + (prefixText f base).length + max numdigits precision) := by
  have hmax : (if numdigits > precision then numdigits else precision) = max numdigits precision := by
    split <;> omega
  have hsign : signSize e signch (max numdigits precision) =
      pure (signch.toList.length + max numdigits precision) := by
    rw [signSize_eq]
    split
    · rename_i hnil
      simp [hnil]
    · rw [int_eq e (by omega), Int.add_comm]
  rw [printedSize, hmax, hsign, pure_bind, prefixSize_eq e hb]
  split
  · rename_i hnil
    simp [hnil]
  · rw [int_eq e (by omega)]
    congr 1
    omega

theorem printedSize_undefined (he : ∀ x, e.overflow.int x = none)
    (hb : base = 2 ∨ base = 8 ∨ base = 10 ∨ base = 16) (h0 : 0 ≤ numdigits)
    (hmost : max numdigits precision < 2 ^ 31)
    (h : 2 ^ 31 ≤ signch.toList.length + (prefixText f base).length + max numdigits precision) :
    printedSize e f base signch numdigits precision = halt .undefined := by
  have hmax : (if numdigits > precision then numdigits else precision) = max numdigits precision := by
    split <;> omega
  rw [printedSize, hmax, signSize_eq]
  by_cases hsign : (max numdigits precision) + signch.toList.length < 2 ^ 31
  · have hprefix : prefixText f base ≠ [] := by
      intro hnil
      simp only [hnil, List.length_nil, Nat.cast_zero] at h
      omega
    have hrest (x : Int) (hx : x = max numdigits precision + signch.toList.length) :
        prefixSize e f base x = halt .undefined := by
      rw [prefixSize_eq e hb, if_neg hprefix, int_undefined e (he _) (by omega)]
    split
    · rename_i hnil
      rw [pure_bind]
      exact hrest _ (by simp [hnil])
    · rw [int_eq e (by omega), pure_bind]
      exact hrest _ rfl
  · have hne : signch.toList ≠ [] := by
      intro hnil
      simp only [hnil, List.length_nil, Nat.cast_zero] at hsign
      omega
    rw [if_neg hne, int_undefined e (he _) (by omega)]
    rfl

end

/-! ### The steps of `printNumber` -/

/-- `numpr` behind the left padding, which counts the zeros that fill the field. -/
def filled (f : Flags) (width numpr : Int) : Int :=
  if !f.left && f.zero then max width numpr else numpr

theorem filled_bounds (f : Flags) {width numpr : Int} (hw : width < 2 ^ 31) (hn : numpr < 2 ^ 31) :
    numpr ≤ filled f width numpr ∧ filled f width numpr < 2 ^ 31 := by
  rw [filled]
  split
  · omega
  · omega

theorem insertLeft_eq (f : Flags) {width numpr : Int} (hw : width < 2 ^ 31) (hn : 0 ≤ numpr) :
    insertLeft e f width numpr = do
      pad (chr ' ') (if f.left || f.zero then 0 else (width - numpr).toNat)
      return filled f width numpr := by
  rw [insertLeft, filled]
  by_cases hfill : width > numpr
  · cases hleft : f.left with
    | true => simp [pad]
    | false =>
      cases hzero : f.zero with
      | true => simp [pad, hfill, Int.le_of_lt hfill]
      | false => simp [hfill, int_eq e (x := width - numpr) (by omega)]
  · have hnat : (width - numpr).toNat = 0 := by omega
    have hmax : max width numpr = numpr := by omega
    simp [hfill, hnat, hmax, pad]

theorem insertSign_eq (signch : Option Byte) {numpr : Int} (h0 : 0 ≤ numpr) (h : numpr < 2 ^ 31) :
    insertSign e signch numpr = do
      putstr signch.toList
      return numpr - signch.toList.length := by
  cases signch with
  | none => simp [insertSign, putstr]
  | some ch => simp [insertSign, putstr, int_eq e (x := numpr - 1) (by omega)]

theorem insertPrefix_eq (f : Flags) (base : Nat) {numpr : Int} (h0 : 0 ≤ numpr) (h : numpr < 2 ^ 31)
    (hlen : (prefixText f base).length ≤ 2) :
    insertPrefix e f base numpr = do
      putstr (prefixText f base)
      return numpr - (prefixText f base).length := by
  rw [insertPrefix]
  by_cases hne : f.alternate = true ∧ prefixOf base ≠ []
  · rw [prefixText, if_pos hne.1] at hlen
    rw [if_pos hne, prefixText, if_pos hne.1, int_eq e (by omega), pure_bind]
  · have hnil : prefixText f base = [] := by
      rw [prefixText]
      split
      · exact Classical.not_not.mp fun hp => hne ⟨by assumption, hp⟩
      · rfl
    rw [if_neg hne, hnil]
    simp [putstr]

theorem rightPad_eq (f : Flags) (num : Int) :
    rightPad f num = pad (chr ' ') (if f.left then num.toNat else 0) := by
  rw [rightPad]
  cases hleft : f.left with
  | true =>
    by_cases hnum : num > 0
    · simp [hnum]
    · have hnat : num.toNat = 0 := by omega
      simp [hnum, hnat, pad]
  | false => simp [pad]

theorem length_prefixText_le (f : Flags) (base : Nat) : (prefixText f base).length ≤ 2 := by
  rw [prefixText]
  split
  · rw [prefixOf]
    split
    · decide
    · split
      · decide
      · split
        · decide
        · decide
  · decide

section

variable (f : Flags) {width precision size : Int}

/-- One step for each part of the field. -/
theorem printNumber_steps {base : Nat} (digits : List Byte) {sign : Bool} {uval value : BitVec 64}
    {signch : Option Byte} {d : List Byte} (hb : base = 2 ∨ base = 8 ∨ base = 10 ∨ base = 16)
    (hsignch : (if sign then signChar f uval else none) = signch)
    (hvalue : magnitude e sign uval = pure value) (hd : digitText digits base value.toNat = d)
    (hw : -1 ≤ width ∧ width < 2 ^ 31)
    (hsize : signch.toList.length + (prefixText f base).length + max (d.length : Int) precision = size)
    (hlt : size < 2 ^ 31) :
    let numpr := filled f width size - signch.toList.length - (prefixText f base).length
    printNumber e f width precision base digits sign uval = do
      pad (chr ' ') (if f.left || f.zero then 0 else (width - size).toNat)
      putstr signch.toList
      putstr (prefixText f base)
      pad (chr '0') (numpr - d.length).toNat
      putstr d
      pad (chr ' ') (if f.left then (width - numpr - signch.toList.length).toNat else 0)
      return numpr := by
  have hbase : 2 ≤ base := by omega
  have hcs : (digitChars digits base value.toNat).length = d.length := by
    rw [← hd, digitText, List.length_reverse]
  have hrev : (digitChars digits base value.toNat).reverse = d := hd
  have hsome : (if signch.isSome then 1 else 0 : Int) = signch.toList.length := by
    cases signch <;> rfl
  have hprefix := length_prefixText_le f base
  obtain ⟨hlow, hhigh⟩ := filled_bounds f hw.2 hlt
  have hprinted : printedSize e f base signch d.length precision = pure size := by
    rw [printedSize_eq e hb (Int.natCast_nonneg _) (by omega), hsize]
  rw [printNumber, hsignch, hvalue, pure_bind, convert_bits digits hbase value.isLt, pure_bind, hcs,
    hprinted, pure_bind, insertLeft_eq e f hw.2 (by omega)]
  simp only [bind_assoc, pure_bind]
  rw [insertSign_eq e signch (by omega) hhigh]
  simp only [bind_assoc, pure_bind]
  rw [insertPrefix_eq e f base (by omega) (by omega) hprefix]
  simp only [bind_assoc, pure_bind]
  rw [int_eq e (by omega), pure_bind, int_eq e (by omega), pure_bind, hsome, int_eq e (by omega),
    pure_bind, rightPad_eq, hrev]

/-- What the steps print. -/
theorem printedText_eq {s p d : List Byte}
    (hsize : s.length + p.length + max (d.length : Int) precision = size) :
    let numpr := filled f width size - s.length - p.length
    printedText f width precision s p d =
      List.replicate (if f.left || f.zero then 0 else (width - size).toNat) (chr ' ') ++ (s ++ (p ++
        (List.replicate (numpr - d.length).toNat (chr '0') ++ (d ++
          List.replicate (if f.left then (width - numpr - s.length).toNat else 0) (chr ' '))))) := by
  rw [printedText, fieldText, filled, hsize]
  cases hl : f.left with
  | true =>
    have hzeros : (size - s.length - p.length - d.length).toNat = (precision - d.length).toNat := by omega
    have hright : width - (size - s.length - p.length) - s.length =
        width - (s.length + max (d.length : Int) precision) := by
      omega
    simp [hzeros, hright]
  | false =>
    cases hz : f.zero with
    | true =>
      have hzeros : (max width size - s.length - p.length - d.length).toNat =
          (width - size).toNat + (precision - d.length).toNat := by
        omega
      simp [hzeros]
    | false =>
      have hzeros : (size - s.length - p.length - d.length).toNat = (precision - d.length).toNat := by
        omega
      simp [hzeros]

/-- Where no operation is out of range, a number is printed with `printedText`. -/
theorem printNumber_prints {base : Nat} (digits : List Byte) {sign : Bool} {uval value : BitVec 64}
    {signch : Option Byte} {d : List Byte} (hb : base = 2 ∨ base = 8 ∨ base = 10 ∨ base = 16)
    (hsignch : (if sign then signChar f uval else none) = signch)
    (hvalue : magnitude e sign uval = pure value) (hd : digitText digits base value.toNat = d)
    (hw : -1 ≤ width ∧ width < 2 ^ 31)
    (hsize : signch.toList.length + (prefixText f base).length + max (d.length : Int) precision < 2 ^ 31)
    (a : Nat) :
    ∃ v, Prints a (printedText f width precision signch.toList (prefixText f base) d) v a
      (printNumber e f width precision base digits sign uval) := by
  have hright (n : Nat) (v : Int) : Prints a (List.replicate n (chr ' ')) v a (do
      pad (chr ' ') n
      return v) := by
    simpa using (pad_prints (chr ' ') n a).seq (Prints.pure v a)
  rw [printNumber_steps e f digits hb hsignch hvalue hd hw rfl hsize, printedText_eq f rfl]
  exact ⟨_, (pad_prints _ _ a).seq ((putstr_prints _ a).seq ((putstr_prints _ a).seq
    ((pad_prints _ _ a).seq ((putstr_prints _ a).seq (hright _ _)))))⟩

end

end

end FreeVMS.Rtl.Sprint
