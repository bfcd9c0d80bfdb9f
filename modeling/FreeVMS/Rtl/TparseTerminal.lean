import FreeVMS.Rtl.TparseCursor
import Mathlib.Data.List.TakeWhile

/-!
# The terminals of the table driven parser

What each terminal type is to take from the input, and on which inputs `lib$tparse` takes just that.
One scanner serves nine of the types, and takes blanks wherever it takes anything else.
-/

namespace FreeVMS.Rtl.Tparse

/-! ### What the terminals stand for -/

inductive Radix where
  | decimal | octal | hex
  deriving DecidableEq

def Radix.base : Radix → Nat
  | .decimal => 10
  | .octal => 8
  | .hex => 16

inductive Terminal where
  | character (c : Byte)
  | alpha | digit | string | symbol | blank
  | number (radix : Radix)

def Terminal.code : Terminal → Nat
  | .character c => c.toNat
  | .alpha => tpaAlpha
  | .digit => tpaDigit
  | .string => tpaString
  | .symbol => tpaSymbol
  | .blank => tpaBlank
  | .number .decimal => tpaDecimal
  | .number .octal => tpaOctal
  | .number .hex => tpaHex

/-- The value of a digit or letter as a digit. -/
def digitValue (c : Byte) : Nat :=
  if isNumeric c then c.toNat - 48 else (tolower c).toNat - 87

def isRadixDigit (base : Nat) (c : Byte) : Bool :=
  (isNumeric c || isAlphabetic c) && digitValue c < base

/-- The characters that a terminal is made of. -/
def Terminal.accepts : Terminal → Byte → Bool
  | .character t, c => tolower c = tolower t
  | .alpha, c => isAlphabetic c
  | .digit, c => isNumeric c
  | .string, c => isAlphabetic c || isNumeric c
  | .symbol, c => isAlphabetic c || isNumeric c || isSymbol c
  | .blank, c => isSpace c
  | .number radix, c => isRadixDigit radix.base c

/-- One character only. -/
def Terminal.single : Terminal → Bool
  | .character _ | .alpha | .digit => true
  | _ => false

/-- What a terminal is to take from the input. -/
def Terminal.run (t : Terminal) (s : List Byte) : List Byte :=
  (if t.single then s.take 1 else s).takeWhile t.accepts

def radixValue (base : Nat) (ds : List Byte) : Nat :=
  ds.foldl (fun n c => n * base + digitValue c) 0

/-- The input that is left. -/
def Tpa.input (tpa : Tpa) (w : World) : List Byte :=
  bytesAt w.memory tpa.stringptr.toNat tpa.stringcnt.toNat

/-- The test of the terminal at the cursor. -/
def lookAt (rom : Memory) (keyTable : Nat) (type : BitVec 32) (tpa : Tpa) (w : World) :
    Tested × Tpa × World :=
  test rom keyTable type { tpa with tokenptr := tpa.stringptr } (w.count 0)

/-- The test succeeds if and only if there is something to take, `char_count` is its length, and
    of a number the value is stored, modulo 2^32. -/
structure Correct (t : Terminal) (s : List Byte) (r : Tested × Tpa × World) : Prop where
  matches_iff : r.1 = .ifval true ↔ t.run s ≠ []
  count : r.1 = .ifval true → r.2.2.charCount.toNat = (t.run s).length
  value : ∀ radix, t = .number radix → r.1 = .ifval true →
    r.2.1.number.toNat = radixValue radix.base (t.run s) % 2 ^ 32

/-- What the conversion of a number takes for a digit. -/
def isDecimal (base : Nat) (c : Byte) : Bool := isNumeric c && c.toNat - 48 < base

/-! ### Where the source takes just that -/

/-- The scanner stops behind `taken`. -/
def StopsBehind (accepts : Byte → Bool) (s taken : List Byte) : Prop :=
  ∀ c, (s.drop taken.length).head? = some c → accepts c = false

/-- Blanks with a number of decimal digits behind them, where the scanner stops. -/
def BlankedNumber (base : Nat) (s : List Byte) : Prop :=
  ∃ blanks digits rest, s = blanks ++ (digits ++ rest) ∧ (∀ c ∈ blanks, isSpace c = true) ∧
    digits ≠ [] ∧ (∀ c ∈ digits, isDecimal base c = true) ∧
    ∀ c, rest.head? = some c → StringType.accepts .numeric c = false

/-- The inputs on which a terminal is taken right. -/
def Terminal.Holds (t : Terminal) (s : List Byte) : Prop :=
  match t with
  | .character t => ∀ c, s.head? = some c → upcase t = upcase c → tolower c = tolower t
  | .alpha => True
  | .digit => ∀ c, s.head? = some c → isAlphabetic c = false ∧ isNumeric c = false
  | .string | .symbol | .blank =>
    if s.length < 2 ^ 31 then StopsBehind isSpace s (t.run s) else t.run s = []
  | .number radix =>
    if t.run s = [] then ¬ (s.length < 2 ^ 31 ∧ BlankedNumber radix.base s)
    else s.length < 2 ^ 31 ∧ (∀ c ∈ t.run s, isNumeric c = true) ∧
      StopsBehind (StringType.accepts .numeric) s (t.run s) ∧
      (radixValue radix.base (t.run s) < 2 ^ 63 ∨
        radixValue radix.base (t.run s) % 2 ^ 32 = 2 ^ 32 - 1)

/-! ### The scanner -/

/-- What is taken ends where the next character is not accepted. -/
theorem takeWhile_exact {p : Byte → Bool} {taken rest : List Byte} (h : ∀ c ∈ taken, p c = true)
    (hstop : ∀ c, rest.head? = some c → p c = false) : (taken ++ rest).takeWhile p = taken := by
  rw [List.takeWhile_append_of_pos h]
  cases rest with
  | nil => simp
  | cons c rest => simp [hstop c rfl]

theorem head?_dropWhile_not {p : Byte → Bool} {s : List Byte} {c : Byte}
    (h : (s.dropWhile p).head? = some c) : p c = false := by
  induction s with
  | nil => cases h
  | cons d s ih =>
    rw [List.dropWhile_cons] at h
    split at h
    · exact ih h
    · next hd =>
      cases h
      simpa using hd

theorem drop_takeWhile (p : Byte → Bool) (s : List Byte) :
    s.drop (s.takeWhile p).length = s.dropWhile p := by
  calc s.drop (s.takeWhile p).length
      = (s.takeWhile p ++ s.dropWhile p).drop (s.takeWhile p).length := by
        rw [List.takeWhile_append_dropWhile]
    _ = s.dropWhile p := List.drop_left

/-- One class of characters in another: the longest pieces are the same if and only if the larger
    class stops behind the smaller one's piece. -/
theorem takeWhile_eq_iff {p q : Byte → Bool} (hpq : ∀ c, p c = true → q c = true) (s : List Byte) :
    (s.takeWhile q).length = (s.takeWhile p).length ↔ StopsBehind q s (s.takeWhile p) := by
  have hsplit : s.takeWhile p ++ s.dropWhile p = s := List.takeWhile_append_dropWhile
  have htaken : ∀ c ∈ s.takeWhile p, q c = true := fun c hc => hpq c (List.mem_takeWhile_imp hc)
  generalize s.takeWhile p = taken at hsplit htaken ⊢
  generalize s.dropWhile p = rest at hsplit
  subst hsplit
  unfold StopsBehind
  rw [List.takeWhile_append_of_pos htaken, List.drop_left, List.length_append]
  cases rest with
  | nil => simp
  | cons c rest => by_cases hc : q c = true <;> simp [hc]

theorem spanCount_eq (type : StringType) (m : Memory) (p n : Nat) :
    spanCount type m p n = ((bytesAt m p n).takeWhile type.accepts).length := by
  induction n generalizing p with
  | zero => rfl
  | succ n ih =>
    have hnext : ((p : Int) + 1) = ((p + 1 : Nat) : Int) := rfl
    rw [spanCount, bytesAt_succ, List.takeWhile_cons, hnext, ih]
    by_cases hc : type.accepts (m p) = true <;> simp [charAt, hc]

/-- The scanner counts in an `int`, so that it sees nothing of 2^31 characters and more. -/
theorem getstring_eq (tpa : Tpa) (w : World) (type : StringType) (hptr : 0 ≤ tpa.stringptr) :
    getstring tpa w.memory type =
      if tpa.stringcnt.toNat < 2 ^ 31 then ((tpa.input w).takeWhile type.accepts).length else 0 := by
  obtain ⟨p, hp⟩ := Int.eq_ofNat_of_zero_le hptr
  have hcond := BitVec.toInt_eq_toNat_cond tpa.stringcnt
  have hlt := tpa.stringcnt.isLt
  rw [getstring, Tpa.input, hp, Int.toNat_natCast]
  split at hcond
  · have hint : tpa.stringcnt.toInt.toNat = tpa.stringcnt.toNat := by omega
    rw [if_pos (by omega), hint, spanCount_eq]
  · have hint : tpa.stringcnt.toInt.toNat = 0 := by omega
    rw [if_neg (by omega), hint]
    rfl

@[simp] theorem length_input (tpa : Tpa) (w : World) :
    (tpa.input w).length = tpa.stringcnt.toNat := by
  rw [Tpa.input, length_bytesAt]

/-- The next character. -/
theorem input_cons {tpa : Tpa} (w : World) (hptr : 0 ≤ tpa.stringptr) (hcnt : tpa.stringcnt ≠ 0) :
    ∃ s, tpa.input w = charAt w.memory tpa.stringptr :: s := by
  obtain ⟨p, hp⟩ := Int.eq_ofNat_of_zero_le hptr
  have hpos : tpa.stringcnt.toNat ≠ 0 := fun h => hcnt (BitVec.eq_of_toNat_eq h)
  obtain ⟨n, hn⟩ := Nat.exists_eq_succ_of_ne_zero hpos
  exact ⟨bytesAt w.memory (tpa.stringptr.toNat + 1) n, by rw [Tpa.input, hn, bytesAt_succ]; rfl⟩

/-! ### The tests -/

/-- Nothing is taken from an empty input. -/
theorem correct_empty (t : Terminal) (tpa : Tpa) (w : World) :
    Correct t [] (.ifval false, tpa, w) := by
  have hrun : t.run [] = [] := by
    unfold Terminal.run
    split <;> rfl
  refine ⟨?_, ?_, ?_⟩
  · simp [hrun]
  · intro h
    cases h
  · intro _ _ h
    cases h

theorem correct_testChar {t : Terminal} (hsingle : t.single = true) (c : Byte) (s : List Byte)
    (tpa : Tpa) (w : World) (b : Bool) :
    Correct t (c :: s) (testChar tpa w b) ↔ b = t.accepts c := by
  have hrun : t.run (c :: s) = if t.accepts c = true then [c] else [] := by
    simp [Terminal.run, hsingle, List.takeWhile_cons]
  have hnumber : ∀ radix, t ≠ .number radix := by
    rintro radix rfl
    cases hsingle
  constructor
  · intro h
    have hiff := h.matches_iff
    rw [hrun] at hiff
    cases b <;> cases hc : t.accepts c <;> simp [testChar, hc] at hiff ⊢
  · rintro rfl
    refine ⟨?_, ?_, fun radix h => absurd h (hnumber radix)⟩
    · cases hc : t.accepts c <;> simp [testChar, hrun, hc]
    · intro h
      cases hc : t.accepts c
      · rw [hc] at h
        cases h
      · simp [testChar, hrun, hc, World.count]

theorem correct_testString {t : Terminal} (hnumber : ∀ radix, t ≠ .number radix) (s : List Byte)
    (tpa : Tpa) (w : World) (type : StringType) :
    Correct t s (testString tpa w type) ↔ getstring tpa w.memory type = (t.run s).length := by
  have hlt := (getstring_le tpa w.memory type).1
  have hcount : (testString tpa w type).2.2.charCount.toNat = getstring tpa w.memory type := by
    simp only [testString, World.count, BitVec.toNat_ofNat]
    omega
  have hmatch : (testString tpa w type).1 = .ifval true ↔ 0 < getstring tpa w.memory type := by
    simp [testString]
  constructor
  · intro h
    by_cases hpos : 0 < getstring tpa w.memory type
    · rw [← hcount]
      exact h.count (hmatch.mpr hpos)
    · have hnone : t.run s = [] := not_not.mp (mt (h.matches_iff.trans Iff.rfl).mpr (mt hmatch.mp hpos))
      rw [hnone, List.length_nil]
      omega
  · intro h
    refine ⟨?_, fun _ => hcount.trans h, fun radix hr => absurd hr (hnumber radix)⟩
    rw [hmatch, h, List.length_pos_iff]

/-! ### Numbers -/

theorem digitValue_decimal {base : Nat} {c : Byte} (h : isDecimal base c = true) :
    digitValue c = c.toNat - 48 := by
  simp only [isDecimal, Bool.and_eq_true] at h
  simp [digitValue, h.1]

theorem isRadixDigit_of_isDecimal {base : Nat} {c : Byte} (h : isDecimal base c = true) :
    isRadixDigit base c = true := by
  rw [isRadixDigit, digitValue_decimal h]
  simp only [isDecimal, Bool.and_eq_true] at h
  simp [h.1, of_decide_eq_true h.2]

theorem isDecimal_of_numeric {base : Nat} {c : Byte} (h : isRadixDigit base c = true)
    (hc : isNumeric c = true) : isDecimal base c = true := by
  simpa [isRadixDigit, isDecimal, digitValue, hc] using h

theorem isSpace_of_isDecimal {base : Nat} {c : Byte} (h : isDecimal base c = true) :
    isSpace c = false := by
  simp only [isDecimal, Bool.and_eq_true, isNumeric, decide_eq_true_eq] at h
  simp only [isSpace, decide_eq_false_iff_not]
  rintro (rfl | rfl) <;> simp at h

theorem readNumber_eq (base : Nat) (ds : List Byte) : ∀ value, readNumber base value ds =
    ((ds.takeWhile (isDecimal base)).foldl (fun n c => n * base + digitValue c) value,
      (ds.takeWhile (isDecimal base)).length) := by
  induction ds with
  | nil =>
    intro value
    rfl
  | cons c ds ih =>
    intro value
    by_cases hc : isDecimal base c = true
    · have hcond : isNumeric c = true ∧ c.toNat - 48 < base := by simpa [isDecimal] using hc
      rw [readNumber, if_pos hcond, ih, List.takeWhile_cons_of_pos hc, List.foldl_cons,
        List.length_cons, digitValue_decimal hc]
    · have hcond : ¬ (isNumeric c = true ∧ c.toNat - 48 < base) := by simpa [isDecimal] using hc
      rw [readNumber, if_neg hcond, List.takeWhile_cons_of_neg hc]
      rfl

theorem dropWhile_blanks {base : Nat} {blanks digits : List Byte}
    (hblanks : ∀ c ∈ blanks, isSpace c = true) (hne : digits ≠ [])
    (hdigits : ∀ c ∈ digits, isDecimal base c = true) :
    (blanks ++ digits).dropWhile isSpace = digits := by
  rw [List.dropWhile_append_of_pos hblanks]
  obtain ⟨c, ds, rfl⟩ := List.exists_cons_of_ne_nil hne
  rw [List.dropWhile_cons_of_neg]
  rw [isSpace_of_isDecimal (hdigits c List.mem_cons_self)]
  decide

theorem strtol_blanked {base : Nat} {blanks digits : List Byte}
    (hblanks : ∀ c ∈ blanks, isSpace c = true) (hne : digits ≠ [])
    (hdigits : ∀ c ∈ digits, isDecimal base c = true) :
    strtol base (blanks ++ digits) =
      (min (radixValue base digits) (2 ^ 63 - 1), (blanks ++ digits).length) := by
  have hall : digits.takeWhile (isDecimal base) = digits := List.takeWhile_eq_self_iff.mpr hdigits
  have hlen : digits.length ≠ 0 := fun h => hne (List.length_eq_zero_iff.mp h)
  simp only [strtol, dropWhile_blanks hblanks hne hdigits, readNumber_eq, hall, if_neg hlen,
    List.length_append, Nat.add_sub_cancel]
  rfl

/-- A text that is converted to its end is a blanked number. -/
theorem blanked_of_strtol {base : Nat} {text : List Byte} (hne : text ≠ [])
    (h : (strtol base text).2 = text.length) :
    ∃ blanks digits, text = blanks ++ digits ∧ (∀ c ∈ blanks, isSpace c = true) ∧ digits ≠ [] ∧
      ∀ c ∈ digits, isDecimal base c = true := by
  have hsplit : text.takeWhile isSpace ++ text.dropWhile isSpace = text :=
    List.takeWhile_append_dropWhile
  have hblanks : ∀ c ∈ text.takeWhile isSpace, isSpace c = true :=
    fun c hc => List.mem_takeWhile_imp hc
  have hlen : 0 < text.length := List.length_pos_iff.mpr hne
  simp only [strtol, readNumber_eq] at h
  generalize text.dropWhile isSpace = digits at h hsplit
  generalize text.takeWhile isSpace = blanks at hblanks hsplit
  subst hsplit
  have hle : digits.length ≤ (blanks ++ digits).length := by simp
  split at h
  · simp only at h
    omega
  · next hread =>
    have hfull : (digits.takeWhile (isDecimal base)).length = digits.length := by
      simp only at h
      omega
    have hall : digits.takeWhile (isDecimal base) = digits :=
      (List.takeWhile_prefix _).eq_of_length hfull
    refine ⟨blanks, digits, rfl, hblanks, ?_, ?_⟩
    · rintro rfl
      exact hread rfl
    · intro c hc
      rw [← hall] at hc
      exact List.mem_takeWhile_imp hc

theorem bytesAt_spanCount (type : StringType) (m : Memory) (p n : Nat) :
    bytesAt m p (spanCount type m p n) = (bytesAt m p n).takeWhile type.accepts := by
  induction n generalizing p with
  | zero => rfl
  | succ n ih =>
    have hnext : ((p : Int) + 1) = ((p + 1 : Nat) : Int) := rfl
    rw [spanCount, bytesAt_succ, List.takeWhile_cons, hnext]
    by_cases hc : type.accepts (m p) = true
    · have hat : type.accepts (charAt m p) = true := hc
      rw [if_pos hat, if_pos hc, bytesAt_succ, ih]
    · have hat : ¬ type.accepts (charAt m p) = true := hc
      rw [if_neg hat, if_neg hc, bytesAt_zero]

/-- The text that `getstring` takes. -/
theorem bytesAt_getstring (tpa : Tpa) (w : World) (type : StringType) (hptr : 0 ≤ tpa.stringptr) :
    bytesAt w.memory tpa.stringptr.toNat (getstring tpa w.memory type) =
      if tpa.stringcnt.toNat < 2 ^ 31 then (tpa.input w).takeWhile type.accepts else [] := by
  split
  · next hsmall =>
    have hint : tpa.stringcnt.toInt.toNat = tpa.stringcnt.toNat := by
      have hcond := BitVec.toInt_eq_toNat_cond tpa.stringcnt
      rw [if_pos (by omega)] at hcond
      omega
    obtain ⟨p, hp⟩ := Int.eq_ofNat_of_zero_le hptr
    rw [getstring, Tpa.input, hint, hp, Int.toNat_natCast, bytesAt_spanCount]
  · next hlarge => rw [getstring_eq tpa w type hptr, if_neg hlarge, bytesAt_zero]

theorem accepts_numeric_space {c : Byte} (h : isSpace c = true) :
    StringType.accepts .numeric c = true := by
  simp [StringType.accepts, h]

theorem accepts_numeric_decimal {base : Nat} {c : Byte} (h : isDecimal base c = true) :
    StringType.accepts .numeric c = true := by
  simp only [isDecimal, Bool.and_eq_true] at h
  simp [StringType.accepts, h.1]

section Number

variable {tpa : Tpa} {w : World} {base : Nat}

theorem testNumber_eq (htoken : tpa.tokenptr = tpa.stringptr)
    {text : List Byte} (hpos : text ≠ [])
    (htext : bytesAt w.memory tpa.stringptr.toNat (getstring tpa w.memory .numeric) = text) :
    testNumber tpa w base = (.ifval ((strtol base text).2 = text.length),
      { tpa with number := BitVec.ofNat 32 (strtol base text).1 }, w.count text.length) := by
  have hlen : getstring tpa w.memory .numeric = text.length := by rw [← htext, length_bytesAt]
  have hlt : 0 < getstring tpa w.memory .numeric := by
    rw [hlen]
    exact List.length_pos_iff.mpr hpos
  simp only [testNumber, htoken]
  rw [if_pos hlt, htext, hlen]

/-- A blanked number is taken with its blanks. -/
theorem testNumber_blanked (hptr : 0 ≤ tpa.stringptr) (htoken : tpa.tokenptr = tpa.stringptr)
    (hsmall : tpa.stringcnt.toNat < 2 ^ 31) {blanks digits rest : List Byte}
    (hinput : tpa.input w = blanks ++ (digits ++ rest)) (hblanks : ∀ c ∈ blanks, isSpace c = true)
    (hne : digits ≠ []) (hdigits : ∀ c ∈ digits, isDecimal base c = true)
    (hstop : ∀ c, rest.head? = some c → StringType.accepts .numeric c = false) :
    testNumber tpa w base = (.ifval true,
      { tpa with number := BitVec.ofNat 32 (min (radixValue base digits) (2 ^ 63 - 1)) },
      w.count (blanks ++ digits).length) := by
  have htaken : ∀ c ∈ blanks ++ digits, StringType.accepts .numeric c = true := by
    intro c hc
    rcases List.mem_append.mp hc with hc | hc
    · exact accepts_numeric_space (hblanks c hc)
    · exact accepts_numeric_decimal (hdigits c hc)
  have htext := bytesAt_getstring tpa w .numeric hptr
  rw [if_pos hsmall, hinput, ← List.append_assoc, takeWhile_exact htaken hstop] at htext
  have hpos : blanks ++ digits ≠ [] := by simp [hne]
  rw [testNumber_eq htoken hpos htext, strtol_blanked hblanks hne hdigits]
  simp

/-- Nothing else is taken. -/
theorem blanked_of_testNumber (hptr : 0 ≤ tpa.stringptr) (htoken : tpa.tokenptr = tpa.stringptr)
    (h : (testNumber tpa w base).1 = .ifval true) :
    (tpa.input w).length < 2 ^ 31 ∧ BlankedNumber base (tpa.input w) := by
  have htext := bytesAt_getstring tpa w .numeric hptr
  by_cases hpos : bytesAt w.memory tpa.stringptr.toNat (getstring tpa w.memory .numeric) = []
  · have hzero : getstring tpa w.memory .numeric = 0 := by
      rw [← length_bytesAt w.memory tpa.stringptr.toNat (getstring tpa w.memory .numeric), hpos]
      rfl
    simp [testNumber, hzero] at h
  · rw [testNumber_eq htoken hpos rfl] at h
    by_cases hsmall : tpa.stringcnt.toNat < 2 ^ 31
    · rw [if_pos hsmall] at htext
      rw [htext] at h hpos
      simp only [Tested.ifval.injEq, decide_eq_true_eq] at h
      obtain ⟨blanks, digits, hsplit, hblanks, hne, hdigits⟩ := blanked_of_strtol hpos h
      refine ⟨by simpa using hsmall, blanks, digits,
        (tpa.input w).dropWhile (StringType.accepts .numeric), ?_, hblanks, hne, hdigits,
        fun c hc => head?_dropWhile_not hc⟩
      rw [← List.append_assoc, ← hsplit, List.takeWhile_append_dropWhile]
    · rw [if_neg hsmall] at htext
      exact absurd htext hpos

theorem testNumber_matches (hptr : 0 ≤ tpa.stringptr) (htoken : tpa.tokenptr = tpa.stringptr) :
    (testNumber tpa w base).1 = .ifval true ↔
      (tpa.input w).length < 2 ^ 31 ∧ BlankedNumber base (tpa.input w) := by
  constructor
  · exact blanked_of_testNumber hptr htoken
  · rintro ⟨hsmall, blanks, digits, rest, hinput, hblanks, hne, hdigits, hstop⟩
    rw [length_input] at hsmall
    rw [testNumber_blanked hptr htoken hsmall hinput hblanks hne hdigits hstop]

/-- A number that is taken begins at the cursor if a digit of the radix stands there. -/
theorem blanks_nil {blanks tail : List Byte} (hblanks : ∀ c ∈ blanks, isSpace c = true)
    (hrun : (blanks ++ tail).takeWhile (isRadixDigit base) ≠ []) : blanks = [] := by
  cases blanks with
  | nil => rfl
  | cons c blanks =>
    exfalso
    apply hrun
    rw [List.cons_append, List.takeWhile_cons_of_neg]
    have hc := hblanks c List.mem_cons_self
    simp only [isSpace, decide_eq_true_eq] at hc
    rcases hc with rfl | rfl <;> simp [isRadixDigit, isNumeric, isAlphabetic]

theorem min_mod_iff (v : Nat) : min v (2 ^ 63 - 1) % 2 ^ 32 = v % 2 ^ 32 ↔
    v < 2 ^ 63 ∨ v % 2 ^ 32 = 2 ^ 32 - 1 := by
  omega

theorem number_run (radix : Radix) (s : List Byte) :
    (Terminal.number radix).run s = s.takeWhile (isRadixDigit radix.base) := rfl

/-- Where a digit of the radix stands at the cursor, a correct result is one without blanks, in decimal
    digits only. -/
theorem number_holds_of_correct (hptr : 0 ≤ tpa.stringptr) (htoken : tpa.tokenptr = tpa.stringptr)
    {radix : Radix} (hsome : (tpa.input w).takeWhile (isRadixDigit radix.base) ≠ [])
    (h : Correct (.number radix) (tpa.input w) (testNumber tpa w radix.base)) :
    (Terminal.number radix).Holds (tpa.input w) := by
  have hrun := number_run radix (tpa.input w)
  unfold Terminal.Holds
  simp only [hrun]
  rw [if_neg hsome]
  have hyes := h.matches_iff.mpr (hrun ▸ hsome)
  obtain ⟨hsmall, blanks, digits, rest, hinput, hblanks, hne, hdigits, hstop⟩ :=
    (testNumber_matches hptr htoken).mp hyes
  have hsmall' : tpa.stringcnt.toNat < 2 ^ 31 := by rwa [length_input] at hsmall
  have htest := testNumber_blanked hptr htoken hsmall' hinput hblanks hne hdigits hstop
  have hcount := h.count hyes
  have hvalue := h.value radix rfl hyes
  rw [hinput] at hsome
  obtain rfl := blanks_nil hblanks hsome
  rw [List.nil_append] at hinput
  have hradix : ∀ c ∈ digits, isRadixDigit radix.base c = true :=
    fun c hc => isRadixDigit_of_isDecimal (hdigits c hc)
  have hlong : digits.length < 2 ^ 31 := by
    rw [hinput, List.length_append] at hsmall
    omega
  rw [hrun, hinput, List.takeWhile_append_of_pos hradix] at hcount hvalue
  rw [htest] at hcount hvalue
  simp only [World.count, List.nil_append, BitVec.toNat_ofNat, List.length_append] at hcount hvalue
  have hrest : rest.takeWhile (isRadixDigit radix.base) = [] := by
    apply List.length_eq_zero_iff.mp
    omega
  rw [hrest, List.append_nil] at hvalue
  rw [hinput, List.takeWhile_append_of_pos hradix, hrest, List.append_nil]
  refine ⟨by rwa [hinput] at hsmall, ?_, ?_, (min_mod_iff _).mp hvalue⟩
  · intro c hc
    have hd := hdigits c hc
    simp only [isDecimal, Bool.and_eq_true] at hd
    exact hd.1
  · rwa [StopsBehind, List.drop_left]

theorem correct_of_number_holds (hptr : 0 ≤ tpa.stringptr) (htoken : tpa.tokenptr = tpa.stringptr)
    {radix : Radix} (hsome : (tpa.input w).takeWhile (isRadixDigit radix.base) ≠ [])
    (h : (Terminal.number radix).Holds (tpa.input w)) :
    Correct (.number radix) (tpa.input w) (testNumber tpa w radix.base) := by
  have hrun := number_run radix (tpa.input w)
  unfold Terminal.Holds at h
  simp only [hrun] at h
  rw [if_neg hsome] at h
  obtain ⟨hsmall, hnumeric, hstop, hvalue⟩ := h
  have hsplit := List.prefix_iff_eq_append.mp
    (List.takeWhile_prefix (l := tpa.input w) (isRadixDigit radix.base))
  have hradix : ∀ c ∈ (tpa.input w).takeWhile (isRadixDigit radix.base),
      isRadixDigit radix.base c = true := fun c hc => List.mem_takeWhile_imp hc
  rw [length_input] at hsmall
  have hblanks : ∀ c ∈ ([] : List Byte), isSpace c = true :=
    fun c hc => absurd hc List.not_mem_nil
  have htest := testNumber_blanked hptr htoken hsmall hsplit.symm hblanks hsome
    (fun c hc => isDecimal_of_numeric (hradix c hc) (hnumeric c hc)) hstop
  have hshort : ((tpa.input w).takeWhile (isRadixDigit radix.base)).length ≤
      tpa.stringcnt.toNat := by
    rw [← length_input tpa w]
    exact (List.takeWhile_prefix _).length_le
  rw [htest]
  refine ⟨?_, ?_, ?_⟩
  · simp [hrun, hsome]
  · intro _
    rw [hrun, List.nil_append, World.count, BitVec.toNat_ofNat, Nat.mod_eq_of_lt (by omega)]
  · rintro _ ⟨⟩ _
    rw [hrun, BitVec.toNat_ofNat]
    exact (min_mod_iff _).mpr hvalue

theorem correct_testNumber (hptr : 0 ≤ tpa.stringptr) (htoken : tpa.tokenptr = tpa.stringptr)
    (radix : Radix) : Correct (.number radix) (tpa.input w) (testNumber tpa w radix.base) ↔
      (Terminal.number radix).Holds (tpa.input w) := by
  have hrun := number_run radix (tpa.input w)
  by_cases hnone : (tpa.input w).takeWhile (isRadixDigit radix.base) = []
  · have hholds : (Terminal.number radix).Holds (tpa.input w) ↔
        ¬ (testNumber tpa w radix.base).1 = .ifval true := by
      rw [testNumber_matches hptr htoken]
      unfold Terminal.Holds
      simp only [hrun]
      rw [if_pos hnone]
    rw [hholds]
    constructor
    · intro h hyes
      exact h.matches_iff.mp hyes (hrun.trans hnone)
    · intro hno
      refine ⟨?_, fun hyes => absurd hyes hno, fun _ _ hyes => absurd hyes hno⟩
      rw [hrun, hnone]
      simpa using hno
  · constructor
    · exact number_holds_of_correct hptr htoken hnone
    · exact correct_of_number_holds hptr htoken hnone

end Number

/-! ### All terminals -/

theorem run_of_not_single {t : Terminal} (hsingle : t.single = false) (s : List Byte) :
    t.run s = s.takeWhile t.accepts := by
  simp [Terminal.run, hsingle]

/-- A scanner that takes the terminal's characters, and blanks. -/
theorem correct_scanned {t : Terminal} {type : StringType} (hnumber : ∀ radix, t ≠ .number radix)
    (hsingle : t.single = false) (hclass : ∀ c, type.accepts c = (isSpace c || t.accepts c))
    {tpa : Tpa} (w : World) (hptr : 0 ≤ tpa.stringptr) :
    Correct t (tpa.input w) (testString tpa w type) ↔
      if (tpa.input w).length < 2 ^ 31 then StopsBehind isSpace (tpa.input w) (t.run (tpa.input w))
      else t.run (tpa.input w) = [] := by
  rw [correct_testString hnumber, getstring_eq tpa w type hptr, length_input,
    run_of_not_single hsingle]
  have hlarger : ∀ c, t.accepts c = true → type.accepts c = true := by
    intro c hc
    rw [hclass, hc, Bool.or_true]
  by_cases hsmall : tpa.stringcnt.toNat < 2 ^ 31
  · rw [if_pos hsmall, if_pos hsmall, takeWhile_eq_iff hlarger]
    have hnext : ∀ c, ((tpa.input w).drop ((tpa.input w).takeWhile t.accepts).length).head? =
        some c → t.accepts c = false := by
      intro c hc
      rw [drop_takeWhile] at hc
      exact head?_dropWhile_not hc
    constructor
    · intro h c hc
      have hboth := h c hc
      rw [hclass, Bool.or_eq_false_iff] at hboth
      exact hboth.1
    · intro h c hc
      rw [hclass, h c hc, hnext c hc]
      rfl
  · rw [if_neg hsmall, if_neg hsmall, eq_comm, List.length_eq_zero_iff]

theorem upcase_of_tolower {a b : Byte} (h : tolower a = tolower b) : upcase a = upcase b := by
  have hlower : ∀ c, upcase (tolower c) = upcase c := by decide
  rw [← hlower a, h, hlower]

/-- What the tests by type come to for a terminal. -/
def Terminal.test (t : Terminal) (tpa : Tpa) (w : World) : Tested × Tpa × World :=
  match t with
  | .character c => testChar tpa w (upcase c = upcase (charAt w.memory tpa.stringptr))
  | .alpha | .digit => testChar tpa w (isAlphabetic (charAt w.memory tpa.stringptr))
  | .string => testString tpa w .alphanumeric
  | .symbol => testString tpa w .symbol
  | .blank => testString tpa w .spaces
  | .number radix => testNumber tpa w radix.base

theorem test_of_code (rom : Memory) (keyTable : Nat) {type : BitVec 32} {tpa : Tpa} (w : World)
    {t : Terminal} (htype : typeCode type = t.code) (hcnt : tpa.stringcnt ≠ 0) :
    test rom keyTable type tpa w = t.test tpa w := by
  unfold test
  rw [if_neg (fun h => hcnt h.2)]
  cases t with
  | character c =>
    have hc := c.isLt
    have hcode : type.setWidth 8 = c := by
      apply BitVec.eq_of_toNat_eq
      rw [BitVec.toNat_setWidth]
      simp only [typeCode, Terminal.code] at htype
      omega
    have hle : typeCode type ≤ 255 := by
      rw [htype, Terminal.code]
      omega
    rw [if_pos hle, hcode]
    rfl
  | number radix => cases radix <;> (simp only [htype]; rfl)
  | _ =>
    simp only [htype]
    rfl

theorem holds_empty (t : Terminal) : t.Holds [] := by
  have hblanked : ∀ base, ¬ BlankedNumber base [] := by
    rintro base ⟨blanks, digits, rest, hsplit, _, hne, _⟩
    simp [hne] at hsplit
  cases t with
  | number radix =>
    have hrun : (Terminal.number radix).run [] = [] := rfl
    simp only [Terminal.Holds, if_pos hrun]
    exact fun h => hblanked _ h.2
  | _ => simp [Terminal.Holds, StopsBehind]

theorem correct_test (t : Terminal) (tpa : Tpa) (w : World) (hptr : 0 ≤ tpa.stringptr)
    (htoken : tpa.tokenptr = tpa.stringptr) (hcnt : tpa.stringcnt ≠ 0) :
    Correct t (tpa.input w) (t.test tpa w) ↔ t.Holds (tpa.input w) := by
  obtain ⟨s, hs⟩ := input_cons w hptr hcnt
  cases t with
  | character t =>
    rw [hs]
    simp only [Terminal.test]
    rw [correct_testChar rfl]
    simp only [Terminal.Holds, Terminal.accepts, List.head?_cons, Option.some.injEq]
    constructor
    · rintro h c rfl hup
      rw [decide_eq_decide] at h
      exact h.mp hup
    · intro h
      rw [decide_eq_decide]
      exact ⟨h _ rfl, fun hlow => (upcase_of_tolower hlow).symm⟩
  | alpha =>
    rw [hs]
    simp only [Terminal.test]
    rw [correct_testChar rfl]
    simp [Terminal.Holds, Terminal.accepts]
  | digit =>
    rw [hs]
    simp only [Terminal.test]
    rw [correct_testChar rfl]
    simp only [Terminal.Holds, Terminal.accepts, List.head?_cons, Option.some.injEq]
    have hapart : ∀ c, (isAlphabetic c = isNumeric c ↔
      isAlphabetic c = false ∧ isNumeric c = false) := by decide
    rw [hapart]
    constructor
    · rintro h c rfl
      exact h
    · intro h
      exact h _ rfl
  | string =>
    have hclass : ∀ c, StringType.accepts .alphanumeric c =
      (isSpace c || Terminal.accepts .string c) := by decide
    exact correct_scanned (by simp) rfl hclass w hptr
  | symbol =>
    have hclass : ∀ c, StringType.accepts .symbol c =
      (isSpace c || Terminal.accepts .symbol c) := by decide
    exact correct_scanned (by simp) rfl hclass w hptr
  | blank =>
    have hclass : ∀ c, StringType.accepts .spaces c =
      (isSpace c || Terminal.accepts .blank c) := by decide
    exact correct_scanned (by simp) rfl hclass w hptr
  | number radix => exact correct_testNumber hptr htoken radix

/-- **A terminal is taken right exactly on these inputs.** -/
theorem terminal_exact_iff (rom : Memory) (keyTable : Nat) (type : BitVec 32) (tpa : Tpa)
    (w : World) (t : Terminal) (hptr : 0 ≤ tpa.stringptr) (htype : typeCode type = t.code) :
    Correct t (tpa.input w) (lookAt rom keyTable type tpa w) ↔ t.Holds (tpa.input w) := by
  by_cases hcnt : tpa.stringcnt = 0
  · have hinput : tpa.input w = [] := by
      apply List.length_eq_zero_iff.mp
      rw [length_input, hcnt]
      rfl
    have hbefore : typeCode type < tpaLambda := by
      rw [htype]
      cases t with
      | character c =>
        have hc := c.isLt
        simp only [Terminal.code, tpaLambda]
        omega
      | number radix => cases radix <;> decide
      | _ => decide
    rw [lookAt, test, if_pos ⟨hbefore, hcnt⟩, hinput]
    exact iff_of_true (correct_empty t _ _) (holds_empty t)
  · have hcnt' : { tpa with tokenptr := tpa.stringptr }.stringcnt ≠ 0 := hcnt
    rw [lookAt, test_of_code rom keyTable _ htype hcnt']
    exact correct_test t { tpa with tokenptr := tpa.stringptr } (w.count 0) hptr rfl hcnt'

/-- `'7'` in front of a comma is not taken for a digit. -/
def seven : Memory := fun a => if a = 0 then 0x37 else 0x2C

def sevenTpa : Tpa :=
  { count := 8, vBlanks := false, vAbbrev := false, vAbbrfm := false, vAmbig := false, mcount := 0,
    stringcnt := 2, stringptr := 0, tokencnt := 0, tokenptr := 0, char := 0, number := 0, param := 0 }

def sevenWorld : World := ⟨seven, 0, 0⟩

theorem seven_is_no_digit : typeCode 0x1EF = Terminal.code .digit ∧
    ¬ Correct .digit (sevenTpa.input sevenWorld) (lookAt seven 0 0x1EF sevenTpa sevenWorld) := by
  refine ⟨by decide, ?_⟩
  intro h
  have hmatch := h.matches_iff.mpr (by decide)
  have hno : (lookAt seven 0 0x1EF sevenTpa sevenWorld).1 = .ifval false := rfl
  rw [hno] at hmatch
  cases hmatch

/-- As a decimal number it is taken right. -/
theorem seven_is_a_number :
    Correct (.number .decimal) (sevenTpa.input sevenWorld)
      (lookAt seven 0 0x1F3 sevenTpa sevenWorld) := by
  apply (terminal_exact_iff seven 0 0x1F3 sevenTpa sevenWorld (.number .decimal) (by decide)
    (by decide)).mpr
  have hinput : sevenTpa.input sevenWorld = [0x37, 0x2C] := rfl
  have hrun : (Terminal.number .decimal).run [0x37, 0x2C] = [0x37] := by decide
  rw [hinput]
  simp only [Terminal.Holds, hrun]
  rw [if_neg (by decide)]
  refine ⟨by decide, by decide, ?_, Or.inl (by decide)⟩
  intro c hc
  cases hc
  decide

end FreeVMS.Rtl.Tparse
