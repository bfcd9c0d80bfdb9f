import FreeVMS.Rtl.TimeText

/-!
# The round trip of times as text

A text of `sys$asctim` is spaces, digits and separators, field by field; `sys$bintim` reads each field
back to its value and sets every word, so that nothing of the current time stays.
-/

namespace FreeVMS.Rtl

open Lib.Gregorian

/-! ### What is written -/

theorem putAll_append (b : Buffer) (cs ds : List Byte) :
    b.putAll (cs ++ ds) = (b.putAll cs).putAll ds := List.foldl_append

theorem putAll_cons (b : Buffer) (c : Byte) (cs : List Byte) :
    b.putAll (c :: cs) = (b.put c).putAll cs := rfl

/-- With room for all of them the characters are written. -/
theorem putAll_room {b : Buffer} {cs : List Byte} (h : cs.length ≤ b.length) :
    b.putAll cs = ⟨b.text ++ cs, b.length - cs.length⟩ := by
  induction cs generalizing b with
  | nil => simp [Buffer.putAll]
  | cons c cs ih =>
    rw [List.length_cons] at h
    have hput : b.put c = ⟨b.text ++ [c], b.length - 1⟩ := if_pos (by omega)
    rw [putAll_cons, hput, ih (by simp only; omega)]
    simp only [List.append_assoc, List.singleton_append, List.length_cons, Buffer.mk.injEq,
      true_and]
    omega

/-- The last `places` digits of a number, with leading zeros. -/
def digitsText : Nat → Nat → List Byte
  | 0, _ => []
  | places + 1, timval => digitChr (timval / 10 ^ places) :: digitsText places (timval % 10 ^ places)

theorem length_digitsText (places timval : Nat) : (digitsText places timval).length = places := by
  induction places generalizing timval with
  | zero => rfl
  | succ places ih => rw [digitsText, List.length_cons, ih]

theorem putDigits_eq (b : Buffer) (places timval : Nat) :
    b.putDigits places timval = b.putAll (digitsText places timval) := by
  induction places generalizing b timval with
  | zero => rfl
  | succ places ih => rw [Buffer.putDigits, ih, digitsText, putAll_cons]

/-- The loop over leading zeros, with room for them: it writes spaces and keeps the places of the
    number. -/
theorem pad_eq {timval places : Nat} {b : Buffer} (hroom : places ≤ b.length)
    (h : timval < 10 ^ places) :
    ∃ spaces left, b.pad timval places = (left, b.putAll (List.replicate spaces (chr ' '))) ∧
      spaces + left = places ∧ timval < 10 ^ left ∧ (0 < places → 0 < left) ∧
      (10 ^ (places - 1) ≤ timval → spaces = 0) := by
  induction places using Nat.strong_induction_on generalizing b with
  | _ places ih =>
    match places with
    | 0 => exact ⟨0, 0, rfl, rfl, h, fun h0 => h0, fun _ => rfl⟩
    | 1 => exact ⟨0, 1, rfl, rfl, h, fun h0 => h0, fun _ => rfl⟩
    | places + 2 =>
      rw [Buffer.pad]
      split
      · rename_i hpad
        have hput : b.put (chr ' ') = ⟨b.text ++ [chr ' '], b.length - 1⟩ := if_pos (by omega)
        obtain ⟨spaces, left, hloop, hsum, hlt, hpos, _⟩ :=
          ih (places + 1) (by omega) (show places + 1 ≤ (b.put (chr ' ')).length by
            rw [hput]; simp only; omega) hpad.2
        refine ⟨spaces + 1, left, ?_, by omega, hlt, fun _ => hpos (by omega), ?_⟩
        · rw [hloop, List.replicate_succ, putAll_cons]
        · intro hge
          exact absurd hpad.2 (not_lt.mpr hge)
      · exact ⟨0, places + 2, rfl, Nat.zero_add _, h, fun h0 => h0, fun _ => rfl⟩

/-- A number as text: spaces, and at least one digit. -/
def NumberText (timval : Nat) (cs : List Byte) : Prop :=
  ∃ spaces places, timval < 10 ^ (places + 1) ∧
    cs = List.replicate spaces (chr ' ') ++ digitsText (places + 1) timval

theorem putNumber_eq (b : Buffer) {timval : Nat} (hroom : 5 ≤ b.length) (h : timval < 100000) :
    ∃ cs, b.putNumber timval = b.putAll cs ∧ NumberText timval cs ∧ cs.length ≤ 5 ∧
      (1000 ≤ timval → timval < 10000 → cs = digitsText 4 timval) := by
  by_cases hlt : timval < 10000
  · obtain ⟨spaces, left, hpad, hsum, hleft, hpos, hnone⟩ :=
      pad_eq (show 4 ≤ b.length by omega) (show timval < 10 ^ 4 by omega)
    obtain ⟨places, rfl⟩ := Nat.exists_eq_succ_of_ne_zero (hpos (by decide)).ne'
    refine ⟨List.replicate spaces (chr ' ') ++ digitsText (places + 1) timval, ?_,
      ⟨spaces, places, hleft, rfl⟩, ?_, ?_⟩
    · simp only [Buffer.putNumber, if_pos hlt, hpad]
      rw [putAll_append, putDigits_eq]
    · rw [List.length_append, List.length_replicate, length_digitsText]
      omega
    · intro hge _
      obtain rfl := hnone hge
      rw [show places + 1 = 4 by omega]
      rfl
  · refine ⟨digitsText 5 timval, ?_, ⟨0, 4, h, rfl⟩, ?_, ?_⟩
    · simp only [Buffer.putNumber, if_neg hlt]
      exact putDigits_eq _ _ _
    · rw [length_digitsText]
    · intro _ hlt'
      exact absurd hlt' hlt

/-- The digits of a field of two. -/
theorem putTwo_eq (b : Buffer) (timval : Nat) :
    b.putTwo timval = b.putAll (digitsText 2 timval) := by
  simp only [Buffer.putTwo, digitsText, putAll_cons, Nat.pow_one, Nat.pow_zero, Nat.div_one]
  rfl

/-- The text of a time of day. -/
def timeText (v : TimBuf) : List Byte :=
  digitsText 2 v.hour.toNat ++ chr ':' :: (digitsText 2 v.minute.toNat ++
    chr ':' :: (digitsText 2 v.second.toNat ++ chr '.' :: digitsText 2 v.hundredth.toNat))

theorem length_timeText (v : TimBuf) : (timeText v).length = 11 := by
  simp [timeText, length_digitsText]

theorem putTime_eq (b : Buffer) (v : TimBuf) : b.putTime v = b.putAll (timeText v) := by
  simp only [Buffer.putTime, timeText, putAll_append, putAll_cons, putTwo_eq]

/-! ### What is read -/

theorem digitChr_ne {d : Nat} (h : d < 10) {c : Byte} (hc : ¬ IsDigit c) : digitChr d ≠ c :=
  fun heq => hc (heq ▸ digitChr_isDigit h)

/-- The first digit of a number. -/
theorem digitsText_head {places timval : Nat} (h : timval < 10 ^ (places + 1)) :
    timval / 10 ^ places < 10 ∧ timval % 10 ^ places < 10 ^ places := by
  have hpos : 0 < 10 ^ places := by positivity
  rw [pow_succ, mul_comm] at h
  exact ⟨Nat.div_lt_of_lt_mul (by rwa [mul_comm]), Nat.mod_lt _ hpos⟩

theorem wrapInt_of_small {x : Int} (h : IsInt x) : wrapInt x = x :=
  Int.bmod_eq_of_le (by simp only [IsInt] at h; omega) (by simp only [IsInt] at h; omega)

/-- One more digit. -/
theorem wrapInt_digit (num : Int) (d : Int) :
    wrapInt (wrapInt num * 10 + d) = wrapInt (num * 10 + d) := by
  unfold wrapInt
  rw [Int.add_bmod, Int.bmod_mul_bmod, ← Int.add_bmod]

/-- Digits are read back to the number, in an `int`. -/
theorem readDigits_wrap {places timval : Nat} (h : timval < 10 ^ places) {rest : List Byte}
    (hrest : digitNext rest = false) (num : Int) :
    readDigits (wrapInt num) (digitsText places timval ++ rest) =
      (wrapInt (num * 10 ^ places + timval), rest) := by
  induction places generalizing timval num with
  | zero =>
    obtain rfl : timval = 0 := by simpa using h
    cases rest with
    | nil => simp [digitsText, readDigits]
    | cons c rest =>
      have hc : ¬ IsDigit c := by simpa [digitNext] using hrest
      simp [digitsText, readDigits, hc]
  | succ places ih =>
    obtain ⟨hdigit, hlow⟩ := digitsText_head h
    have hsplit := Nat.div_add_mod timval (10 ^ places)
    rw [digitsText, List.cons_append, readDigits, if_pos (digitChr_isDigit hdigit), wrapInt_digit,
      ih hlow, digitChr_toNat hdigit, Prod.mk.injEq]
    refine ⟨?_, rfl⟩
    have hcast : (timval : Int) = 10 ^ places * ((timval / 10 ^ places : Nat) : Int) +
        ((timval % 10 ^ places : Nat) : Int) := by
      exact_mod_cast hsplit.symm
    congr 1
    rw [hcast, pow_succ]
    push_cast
    ring

/-- Digits are read back to the number. -/
theorem readDigits_text {places timval : Nat} (h : timval < 10 ^ places) (hint : timval < 2 ^ 31)
    {rest : List Byte} (hrest : digitNext rest = false) :
    readDigits 0 (digitsText places timval ++ rest) = ((timval : Int), rest) := by
  have hread := readDigits_wrap h hrest 0
  have hzero : wrapInt 0 = 0 := by decide
  have hvalue : wrapInt (0 * 10 ^ places + timval) = timval := by
    rw [Int.zero_mul, Int.zero_add]
    exact wrapInt_of_small ⟨by omega, by omega⟩
  rw [hzero, hvalue] at hread
  exact hread

theorem digitNext_text {places timval : Nat} (h : timval < 10 ^ (places + 1)) (rest : List Byte) :
    digitNext (digitsText (places + 1) timval ++ rest) = true := by
  rw [digitsText, List.cons_append]
  exact decide_eq_true (digitChr_isDigit (digitsText_head h).1)

theorem skipSpaces_text {places timval : Nat} (h : timval < 10 ^ (places + 1))
    (spaces : Nat) (rest : List Byte) :
    skipSpaces (List.replicate spaces (chr ' ') ++ (digitsText (places + 1) timval ++ rest)) =
      digitsText (places + 1) timval ++ rest := by
  induction spaces with
  | zero =>
    rw [List.replicate_zero, List.nil_append, digitsText, List.cons_append, skipSpaces, if_neg]
    exact digitChr_ne (digitsText_head h).1 (by decide)
  | succ spaces ih => rw [List.replicate_succ, List.cons_append, skipSpaces, if_pos rfl, ih]

theorem bintimDay_text {timval : Nat} {cs : List Byte} (h : NumberText timval cs)
    (hint : timval < 2 ^ 31) {rest : List Byte} (hrest : digitNext rest = false) :
    bintimDay (cs ++ rest) = ((timval : Int), rest) := by
  obtain ⟨spaces, places, hlt, rfl⟩ := h
  rw [bintimDay, List.append_assoc]
  simp only [skipSpaces_text hlt, digitNext_text hlt, if_true, readDigits_text hlt hint hrest]

/-- One time field with its separator. -/
theorem bintimFields_text {timval : Nat} (h : timval ≤ 59) {sep : Byte} (hsep : ¬ IsDigit sep)
    (seps : List Byte) (tf : Nat) (v : TimBuf) (rest : List Byte) :
    bintimFields (sep :: seps) tf v (digitsText 2 timval ++ sep :: rest) =
      bintimFields seps (tf + 1) (v.setTime tf (BitVec.ofNat 16 timval)) rest := by
  have hlt : timval < 10 ^ (1 + 1) := by omega
  have hrest : digitNext (sep :: rest) = false := decide_eq_false hsep
  rw [bintimFields]
  simp only [digitNext_text hlt, if_true, readDigits_text hlt (by omega) hrest]
  rw [if_neg (by omega), BitVec.ofInt_natCast]

theorem readHundredths_text {timval : Nat} (h : timval < 100) :
    readHundredths 10 0 (digitsText 2 timval) = ((timval : Int), []) := by
  have hhigh : timval / 10 < 10 := by omega
  have hlow : timval % 10 < 10 := by omega
  simp only [digitsText, readHundredths, Nat.pow_one, Nat.pow_zero, Nat.div_one,
    digitChr_isDigit hhigh, digitChr_isDigit hlow, if_true, digitChr_toNat hhigh,
    digitChr_toNat hlow, Prod.mk.injEq, and_true]
  push_cast
  omega

/-- The time of day of a text. -/
theorem bintimEnd_text {v : TimBuf} (h : v.IsTime) (wrktim : TimBuf) :
    bintimEnd wrktim (chr ' ' :: timeText v) =
      ({ v with year := wrktim.year, month := wrktim.month, day := wrktim.day }, []) := by
  obtain ⟨hhour, hminute, hsecond, hhundredth⟩ := h
  have hskip : skipSpaces (chr ' ' :: timeText v) = timeText v :=
    skipSpaces_text (show v.hour.toNat < 10 ^ (1 + 1) by omega) 1 _
  have hnext : digitNext (digitsText 2 v.hundredth.toNat) = true := by
    have hlt : v.hundredth.toNat < 10 ^ (1 + 1) := by omega
    simpa using digitNext_text hlt []
  have hfields : bintimFields ([':', ':', '.'].map chr) 0 wrktim (timeText v) =
      ({ wrktim with hour := v.hour, minute := v.minute, second := v.second },
        digitsText 2 v.hundredth.toNat) := by
    simp only [List.map_cons, List.map_nil, timeText]
    rw [bintimFields_text (by omega) (by decide), bintimFields_text hminute (by decide),
      bintimFields_text hsecond (by decide), bintimFields]
    simp [TimBuf.setTime]
  simp only [bintimEnd, hskip, hfields, hnext, if_true,
    readHundredths_text (show v.hundredth.toNat < 100 by omega)]
  simp [skipSpaces, BitVec.ofInt_natCast]

/-- The name of a month, between hyphens. -/
def monthText (month : Nat) : List Byte := (monthNames.drop (month * 4 - 4)).take 5

def monthName (month : Nat) : List Byte := (monthNames.drop (month * 4 - 3)).take 3

theorem monthText_months : ∀ month < 13, 1 ≤ month →
    monthText month = chr '-' :: (monthName month ++ [chr '-']) ∧ (monthName month).length = 3 ∧
      (monthName month).head? ≠ some (chr '-') ∧
      findName (monthName month) 12 1 (monthNames.drop 1) = month := by
  decide +kernel

theorem findName_take (chrptr rest : List Byte) (h : chrptr.length = 3) (left num : Nat)
    (mn : List Byte) : findName (chrptr ++ rest) left num mn = findName chrptr left num mn := by
  induction left generalizing num mn with
  | zero => rfl
  | succ left ih =>
    rw [findName, findName, ih, List.take_append_of_le_length (by omega)]

/-- Month and year of a text. -/
theorem bintimDate_text {month year : Nat} (hmonth : 1 ≤ month ∧ month < 13) (hyear : year < 10000)
    (now : TimBuf) (day : Nat) (rest : List Byte) (hrest : digitNext rest = false) :
    bintimDate now day (monthName month ++ chr '-' :: (digitsText 4 year ++ rest)) =
      ({ now with
          year := BitVec.ofNat 16 year, month := BitVec.ofNat 16 month,
          day := BitVec.ofNat 16 day }, rest) := by
  obtain ⟨_, hlen, hhead, hfind⟩ := monthText_months month hmonth.2 hmonth.1
  have hlt : year < 10 ^ (3 + 1) := hyear
  have hname : (monthName month ++ chr '-' :: (digitsText 4 year ++ rest)).length ≥ 3 ∧
      (monthName month ++ chr '-' :: (digitsText 4 year ++ rest)).head? ≠ some (chr '-') := by
    constructor
    · rw [List.length_append]
      omega
    · rw [List.head?_append]
      cases hm : (monthName month).head? with
      | none =>
        rw [List.head?_eq_none_iff] at hm
        rw [hm] at hlen
        cases hlen
      | some c =>
        rw [hm] at hhead
        exact hhead
  have hdrop : (monthName month ++ chr '-' :: (digitsText 4 year ++ rest)).drop 3 =
      chr '-' :: (digitsText 4 year ++ rest) := by
    rw [← hlen, List.drop_left]
  rw [bintimDate]
  simp only [if_pos hname, hdrop, findName_take _ _ hlen, hfind, digitNext_text hlt, if_true,
    readDigits_text hlt (by omega) hrest, ge_iff_le, Int.natCast_nonneg,
    BitVec.ofInt_natCast]

/-! ### Text and words -/

theorem length_putAll (b : Buffer) (cs : List Byte) :
    (b.putAll cs).length = b.length - cs.length := by
  induction cs generalizing b with
  | nil => rfl
  | cons c cs ih =>
    have hput : (b.put c).length = b.length - 1 := by
      rw [Buffer.put]
      split
      · rfl
      · omega
    rw [putAll_cons, ih, hput, List.length_cons]
    omega

/-- The words of an absolute time that is written in 23 characters. -/
def IsAbsolute (v : TimBuf) : Prop :=
  (1000 ≤ v.year.toNat ∧ v.year.toNat < 10000) ∧ (1 ≤ v.month.toNat ∧ v.month.toNat < 13) ∧
    v.day.toNat < 100

/-- The day of the month, in two characters. -/
theorem putDay_eq (b : Buffer) {v : TimBuf} (h : v.day.toNat < 100) :
    ∃ cs, b.putDay v = b.putAll (cs ++ monthText v.month.toNat) ∧ NumberText v.day.toNat cs ∧
      cs.length = 2 := by
  by_cases hone : v.day.toNat / 10 = 0
  · have hlt : v.day.toNat < 10 := by omega
    refine ⟨[chr ' ', digitChr (v.day.toNat % 10)], ?_, ⟨1, 0, hlt, ?_⟩, rfl⟩
    · simp only [Buffer.putDay, if_pos hone, putAll_append, putAll_cons]
      rfl
    · simp [digitsText, Nat.mod_eq_of_lt hlt]
  · refine ⟨digitsText 2 v.day.toNat, ?_, ⟨0, 1, h, rfl⟩, rfl⟩
    simp only [Buffer.putDay, if_neg hone, putAll_append]
    rw [← putTwo_eq]
    rfl

theorem chr_not_digit {c : Byte} (h : ¬ IsDigit c) (cs : List Byte) :
    digitNext (c :: cs) = false := decide_eq_false h

/-- **Absolute times.**  With room for 23 characters the words are written and read back, whatever
    the current time. -/
theorem absolute_text {v : TimBuf} (htime : v.IsTime) (hdate : IsAbsolute v) {length : Nat}
    (hroom : 23 ≤ length) :
    ∃ text, (Buffer.putDate ⟨[], length⟩ v).putTime v = ⟨text, length - text.length⟩ ∧
      text.length ≤ length ∧ ∀ now, bintimWords now text = (v, []) := by
  obtain ⟨hyear, hmonth, hday⟩ := hdate
  obtain ⟨hmonthText, hname, _, _⟩ := monthText_months _ hmonth.2 hmonth.1
  obtain ⟨dayText, hputDay, hdayText, hdayLength⟩ := putDay_eq ⟨[], length⟩ hday
  have hmonthLength : (monthText v.month.toNat).length = 5 := by
    rw [hmonthText, List.length_cons, List.length_append, hname]
    rfl
  obtain ⟨yearText, hputYear, _, _, hfour⟩ := putNumber_eq (Buffer.putDay ⟨[], length⟩ v)
    (show 5 ≤ (Buffer.putDay ⟨[], length⟩ v).length by
      rw [hputDay, length_putAll, List.length_append, hdayLength, hmonthLength]
      simp only
      omega) (show v.year.toNat < 100000 by omega)
  obtain rfl := hfour hyear.1 hyear.2
  have hnonzero : v.year ≠ 0 := by
    intro h0
    rw [h0] at hyear
    exact absurd hyear.1 (by decide)
  refine ⟨dayText ++ (monthText v.month.toNat ++ (digitsText 4 v.year.toNat ++
    chr ' ' :: timeText v)), ?_, ?_, ?_⟩
  · have hput : (Buffer.putDate ⟨[], length⟩ v).putTime v =
        Buffer.putAll ⟨[], length⟩ (dayText ++ (monthText v.month.toNat ++
          (digitsText 4 v.year.toNat ++ chr ' ' :: timeText v))) := by
      simp only [Buffer.putDate, if_pos hnonzero, hputYear]
      simp only [hputDay, putTime_eq, putAll_append, putAll_cons]
    rw [hput, putAll_room]
    · rfl
    · simp only [List.length_append, List.length_cons, hdayLength, hmonthLength, length_digitsText,
        length_timeText]
      omega
  · simp only [List.length_append, List.length_cons, hdayLength, hmonthLength, length_digitsText,
      length_timeText]
    omega
  · intro now
    have hdayRead := bintimDay_text hdayText (by omega) (chr_not_digit (show ¬ IsDigit (chr '-') by decide)
      (monthName v.month.toNat ++ chr '-' :: (digitsText 4 v.year.toNat ++ chr ' ' :: timeText v)))
    have hdateRead := bintimDate_text hmonth hyear.2 now v.day.toNat (chr ' ' :: timeText v)
      (chr_not_digit (by decide) _)
    rw [hmonthText, bintimWords, bintimStart]
    simp only [List.cons_append, List.append_assoc, List.nil_append, hdayRead, if_true, hdateRead,
      bintimEnd_text htime, BitVec.ofNat_toNat, BitVec.setWidth_eq]

/-- **Delta times**, of any number of days. -/
theorem delta_text {v : TimBuf} (htime : v.IsTime) (hdelta : v.year = 0 ∧ v.month = 0)
    {length : Nat} (hroom : 23 ≤ length) :
    ∃ text, (Buffer.putDate ⟨[], length⟩ v).putTime v = ⟨text, length - text.length⟩ ∧
      text.length ≤ length ∧ ∀ now, bintimWords now text = (v, []) := by
  have hday := v.day.isLt
  obtain ⟨dayText, hputDay, hdayText, hdayLength, _⟩ := putNumber_eq ⟨[], length⟩
    (by simp only; omega) (show v.day.toNat < 100000 by omega)
  have hlength : (dayText ++ chr ' ' :: timeText v).length ≤ length := by
    rw [List.length_append, List.length_cons, length_timeText]
    omega
  refine ⟨dayText ++ chr ' ' :: timeText v, ?_, hlength, ?_⟩
  · have hput : (Buffer.putDate ⟨[], length⟩ v).putTime v =
        Buffer.putAll ⟨[], length⟩ (dayText ++ chr ' ' :: timeText v) := by
      simp only [Buffer.putDate, hdelta.1, ne_eq, not_true, if_false, hputDay, putTime_eq,
        putAll_append, putAll_cons]
    rw [hput, putAll_room hlength]
    rfl
  · intro now
    have hdayRead := bintimDay_text hdayText (by omega)
      (chr_not_digit (show ¬ IsDigit (chr ' ') by decide) (timeText v))
    have hspace : ¬ chr ' ' = chr '-' := by decide
    rw [bintimWords, bintimStart]
    simp only [hdayRead, if_neg hspace, bintimEnd_text htime, BitVec.ofInt_natCast,
      BitVec.ofNat_toNat, BitVec.setWidth_eq]
    obtain ⟨year, month, day, hour, minute, second, hundredth⟩ := v
    obtain ⟨rfl, rfl⟩ := hdelta
    rfl

/-! ### Text and quadword -/

section RoundTrip

variable {combine : Int → Quad → Int → Option (Nat × Quad)}

/-- The text of a quadword whose words can be read back. -/
theorem asctim_bintim {gettim gettim' : Nat × Quad} {stack v : TimBuf} {quad : Quad} {length : Nat}
    (hnumtim : sysNumtim gettim (some quad) = (normal, some v))
    (htext : ∃ text, (Buffer.putDate ⟨[], length⟩ v).putTime v = ⟨text, length - text.length⟩ ∧
      text.length ≤ length ∧ ∀ now, bintimWords now text = (v, []))
    (hback : ∀ timadr, libCvtVectim combine v timadr = some (normal, quad)) :
    ∃ timlen text, sysAsctim gettim length (some quad) 0 = (normal, some (timlen, text)) ∧
      ∀ timadr, sysBintim combine gettim' stack (text.take timlen) timadr =
        some (normal, quad) := by
  obtain ⟨text, hput, hlength, hwords⟩ := htext
  refine ⟨text.length, text, ?_, ?_⟩
  · have hodd : ¬ normal &&& 1 = 0 := by decide
    simp only [sysAsctim, hnumtim, if_neg hodd, if_true, hput]
    rw [Nat.sub_sub_self hlength]
  · intro timadr
    rw [List.take_length, sysBintim]
    simp only [hwords, hback]

/-- **Text round trip.**  An absolute time until the end of the year 9999, and a delta time of up to
    65535 days other than zero, written into 23 characters or more, is read back to the same
    quadword, whatever the current time. -/
theorem text_round_trip (hcombine : Combines combine) (gettim gettim' : Nat × Quad)
    (stack : TimBuf) (length : Nat) (hroom : 23 ≤ length) :
    (∀ days dayTime : Nat, (baseDate.after days).year ≤ 9999 → dayTime < timeSize →
      ∃ timlen text,
        sysAsctim gettim length (some (absoluteTime days dayTime)) 0 =
          (normal, some (timlen, text)) ∧
        ∀ timadr, sysBintim combine gettim' stack (text.take timlen) timadr =
          some (normal, absoluteTime days dayTime)) ∧
    ∀ days dayTime : Nat, days ≤ 65535 → dayTime < timeSize → ¬ (days = 0 ∧ dayTime = 0) →
      ∃ timlen text,
        sysAsctim gettim length (some (deltaTime days dayTime)) 0 =
          (normal, some (timlen, text)) ∧
        ∀ timadr, sysBintim combine gettim' stack (text.take timlen) timadr =
          some (normal, deltaTime days dayTime) := by
  constructor
  · intro days dayTime hyear htime
    have hdays := days_after_lt hyear
    obtain ⟨⟨hy, hm, hd⟩, hIsTime, _⟩ := numtimFields_absolute days (by omega) htime
    obtain ⟨hmonth, _, hlen⟩ := (baseDate.after days).isDate
    have hfirst := year_after days
    have hlast := monthLength_le (baseDate.after days).year (baseDate.after days).month
    exact asctim_bintim
      (sysNumtim_absolute gettim _ (by omega) (by omega) (by omega) (by omega))
      (absolute_text hIsTime ⟨by omega, by omega, by omega⟩ hroom)
      (libCvtVectim_absolute hcombine hyear htime)
  · intro days dayTime hdays htime hnonzero
    have hneg : -(days : Int) < 0 ∨ -(dayTime : Int) < 0 := by omega
    have hwords : numtimFields (-days) (-dayTime) =
        numtimWords 0 0 (BitVec.ofNat 16 days) dayTime := by
      rw [numtimFields, if_pos hneg, neg_neg, neg_neg, Int.toNat_natCast, BitVec.ofInt_natCast]
    obtain ⟨hIsTime, hdayTime⟩ := numtimWords_time 0 0 (BitVec.ofNat 16 days) htime
    have hback := libCvtVectim_delta hcombine hIsTime rfl
    have hday : (numtimWords 0 0 (BitVec.ofNat 16 days) dayTime).day.toNat = days := by
      simp only [numtimWords, BitVec.toNat_ofNat]
      omega
    rw [hday, hdayTime] at hback
    have hnumtim := sysNumtim_delta gettim days (by omega) (by omega)
      (show (0 : Int) ≤ dayTime by omega) (by omega)
    rw [hwords] at hnumtim
    exact asctim_bintim hnumtim (delta_text hIsTime ⟨rfl, rfl⟩ hroom) hback

end RoundTrip

/-- A delta time of 65535 days and 5 hundredths. -/
theorem text_round_trip_long :
    ∃ timlen text, sysAsctim (normal, 0) 23 (some (deltaTime 65535 5)) 0 =
        (normal, some (timlen, text)) ∧
      ∀ timadr, sysBintim exactCombine (normal, 0) ⟨0, 0, 0, 0, 0, 0, 0⟩ (text.take timlen) timadr =
        some (normal, deltaTime 65535 5) :=
  (text_round_trip exactCombine_combines (normal, 0) (normal, 0) ⟨0, 0, 0, 0, 0, 0, 0⟩ 23
    (le_refl 23)).2 65535 5 (by decide) (by decide) (by decide)

end FreeVMS.Rtl
