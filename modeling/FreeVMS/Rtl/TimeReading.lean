import FreeVMS.Rtl.TextRoundTrip
import Mathlib.Data.List.TakeWhile

/-!
# What a time in text says

A text of a time taken apart into the pieces that are written in it, with numbers of any length,
and when the words that `sys$bintim` makes of it are those numbers.
-/

namespace FreeVMS.Rtl

/-! ### The pieces of a text -/

/-- The pieces, in their order. A piece that is not there is empty. -/
structure Written where
  lead : List Byte
  day : List Byte
  /-- the "-" of an absolute time -/
  dash : List Byte
  month : List Byte
  yearDash : List Byte
  year : List Byte
  gap : List Byte
  /-- hours, minutes and seconds, each with its separator -/
  times : List (List Byte × List Byte)
  fraction : List Byte
  trail : List Byte

def Written.text (w : Written) : List Byte :=
  w.lead ++ w.day ++ w.dash ++ w.month ++ w.yearDash ++ w.year ++ w.gap ++
    w.times.flatMap (fun t => t.1 ++ t.2) ++ w.fraction ++ w.trail

/-- The digits of the hours, minutes or seconds. -/
def Written.time (w : Written) (tf : Nat) : List Byte := (w.times.getD tf ([], [])).1

def digitsAhead (s : List Byte) : List Byte := s.takeWhile fun c => IsDigit c

def spacesAhead (s : List Byte) : List Byte := s.takeWhile fun c => c = chr ' '

/-- The character `c` where it comes next. -/
def charAhead (c : Byte) : List Byte → List Byte
  | [] => []
  | d :: _ => if d = c then [d] else []

/-- Three characters for a month, or none. -/
def monthAhead (s : List Byte) : List Byte :=
  if s.length ≥ 3 ∧ s.head? ≠ some (chr '-') then s.take 3 else []

/-- What is behind a piece. -/
def past (ahead : List Byte → List Byte) (s : List Byte) : List Byte := s.drop (ahead s).length

/-- The time fields up to the first separator that is not there, and what is behind them. -/
def scanTimes : List Byte → List Byte → List (List Byte × List Byte) × List Byte
  | [], s => ([], s)
  | sep :: seps, s =>
      let digits := digitsAhead s
      let s := past digitsAhead s
      let mark := charAhead sep s
      if mark = [] then ([(digits, [])], s)
      else
        let more := scanTimes seps (past (charAhead sep) s)
        ((digits, mark) :: more.1, more.2)

/-- Month and year behind the first "-". -/
def scanDate (s : List Byte) : (List Byte × List Byte × List Byte) × List Byte :=
  let month := monthAhead s
  let s := past monthAhead s
  let dash := charAhead (chr '-') s
  if dash = [] then ((month, [], []), s)
  else
    let s := past (charAhead (chr '-')) s
    ((month, dash, digitsAhead s), past digitsAhead s)

/-- The time of day, behind a date or the days. -/
def scanEnd (w : Written) (s : List Byte) : Written × List Byte :=
  let gap := spacesAhead s
  let times := scanTimes ([':', ':', '.'].map chr) (past spacesAhead s)
  let fraction := digitsAhead times.2
  let s := past digitsAhead times.2
  ({ w with gap := gap, times := times.1, fraction := fraction, trail := spacesAhead s },
    past spacesAhead s)

/-- The pieces of a text, and the characters that are in none. -/
def scan (s : List Byte) : Written × List Byte :=
  let lead := spacesAhead s
  let s := past spacesAhead s
  let day := digitsAhead s
  let s := past digitsAhead s
  let dash := charAhead (chr '-') s
  let date :=
    if dash = [] then (([], [], []), s) else scanDate (past (charAhead (chr '-')) s)
  scanEnd ⟨lead, day, dash, date.1.1, date.1.2.1, date.1.2.2, [], [], [], []⟩ date.2

theorem ahead_past {ahead : List Byte → List Byte} {s : List Byte} (h : ahead s <+: s) :
    ahead s ++ past ahead s = s :=
  List.prefix_iff_eq_append.mp h

theorem digitsAhead_past (s : List Byte) : digitsAhead s ++ past digitsAhead s = s :=
  ahead_past (List.takeWhile_prefix _)

theorem spacesAhead_past (s : List Byte) : spacesAhead s ++ past spacesAhead s = s :=
  ahead_past (List.takeWhile_prefix _)

theorem charAhead_past (c : Byte) (s : List Byte) : charAhead c s ++ past (charAhead c) s = s := by
  apply ahead_past
  cases s with
  | nil => exact List.nil_prefix
  | cons d s =>
    simp only [charAhead]
    split
    · exact List.prefix_append [d] s
    · exact List.nil_prefix

theorem monthAhead_past (s : List Byte) : monthAhead s ++ past monthAhead s = s := by
  apply ahead_past
  unfold monthAhead
  split
  · exact List.take_prefix 3 s
  · exact List.nil_prefix

theorem scanTimes_text (seps s : List Byte) :
    (scanTimes seps s).1.flatMap (fun t => t.1 ++ t.2) ++ (scanTimes seps s).2 = s := by
  induction seps generalizing s with
  | nil => rfl
  | cons sep seps ih =>
    have hdigits := digitsAhead_past s
    have hmark := charAhead_past sep (past digitsAhead s)
    simp only [scanTimes]
    split
    · simpa using hdigits
    · have hmore := ih (past (charAhead sep) (past digitsAhead s))
      rw [List.flatMap_cons, List.append_assoc, hmore, List.append_assoc, hmark, hdigits]

theorem scanDate_text (s : List Byte) :
    (scanDate s).1.1 ++ ((scanDate s).1.2.1 ++ ((scanDate s).1.2.2 ++ (scanDate s).2)) = s := by
  have hmonth := monthAhead_past s
  have hdash := charAhead_past (chr '-') (past monthAhead s)
  simp only [scanDate]
  split
  · simpa using hmonth
  · rw [digitsAhead_past, hdash, hmonth]

/-- **The pieces and what is left are the text.** -/
theorem scan_text (s : List Byte) : (scan s).1.text ++ (scan s).2 = s := by
  have hlead := spacesAhead_past s
  have hday := digitsAhead_past (past spacesAhead s)
  have hdash := charAhead_past (chr '-') (past digitsAhead (past spacesAhead s))
  have hend : ∀ t, spacesAhead t ++ ((scanTimes ([':', ':', '.'].map chr)
      (past spacesAhead t)).1.flatMap (fun t => t.1 ++ t.2) ++ (digitsAhead (scanTimes
      ([':', ':', '.'].map chr) (past spacesAhead t)).2 ++ (spacesAhead (past digitsAhead
      (scanTimes ([':', ':', '.'].map chr) (past spacesAhead t)).2) ++ past spacesAhead
      (past digitsAhead (scanTimes ([':', ':', '.'].map chr) (past spacesAhead t)).2)))) = t := by
    intro t
    rw [spacesAhead_past, digitsAhead_past, scanTimes_text, spacesAhead_past]
  simp only [scan, scanEnd, Written.text, List.append_assoc]
  split
  · next hno =>
    rw [List.nil_append, List.nil_append, List.nil_append, hend, hno, List.nil_append, hday, hlead]
  · rw [hend, scanDate_text, hdash, hday, hlead]

/-! ### What `sys$bintim` takes from the pieces -/

theorem digitsAhead_digit {c : Byte} (h : IsDigit c) (s : List Byte) :
    digitsAhead (c :: s) = c :: digitsAhead s ∧
      past digitsAhead (c :: s) = past digitsAhead s := by
  have hcons : digitsAhead (c :: s) = c :: digitsAhead s := by simp [digitsAhead, h]
  exact ⟨hcons, by rw [past, hcons, List.length_cons, List.drop_succ_cons]; rfl⟩

theorem digitsAhead_other {c : Byte} (h : ¬ IsDigit c) (s : List Byte) :
    digitsAhead (c :: s) = [] ∧ past digitsAhead (c :: s) = c :: s := by
  have hnone : digitsAhead (c :: s) = [] := by simp [digitsAhead, h]
  exact ⟨hnone, by rw [past, hnone, List.length_nil, List.drop_zero]⟩

theorem digitNext_iff (s : List Byte) : digitNext s = true ↔ digitsAhead s ≠ [] := by
  cases s with
  | nil => simp [digitNext, digitsAhead]
  | cons c s =>
    by_cases hc : IsDigit c
    · simp [digitNext, hc, (digitsAhead_digit hc s).1]
    · simp [digitNext, hc, (digitsAhead_other hc s).1]

theorem skipSpaces_eq (s : List Byte) : skipSpaces s = past spacesAhead s := by
  induction s with
  | nil => rfl
  | cons c s ih =>
    rw [skipSpaces]
    split
    · next hc => simp [ih, past, spacesAhead, hc]
    · next hc => simp [past, spacesAhead, hc]

/-- The digits are read to their number, in an `int`. -/
theorem readDigits_from (num : Nat) (s : List Byte) :
    readDigits (wrapInt num) s =
      (wrapInt ((digitsAhead s).foldl (fun n c => n * 10 + digitOf c) num : Nat),
        past digitsAhead s) := by
  induction s generalizing num with
  | nil => rfl
  | cons c s ih =>
    by_cases hc : IsDigit c
    · obtain ⟨hahead, hpast⟩ := digitsAhead_digit hc s
      have hdigit : (num : Int) * 10 + (c.toNat - 48) = ((num * 10 + digitOf c : Nat) : Int) := by
        unfold IsDigit at hc
        unfold digitOf
        omega
      rw [readDigits, if_pos hc, wrapInt_digit, hdigit, ih, hahead, hpast, List.foldl_cons]
    · obtain ⟨hahead, hpast⟩ := digitsAhead_other hc s
      rw [readDigits, if_neg hc, hahead, hpast, List.foldl_nil]

theorem readDigits_number (s : List Byte) :
    readDigits 0 s = (wrapInt (number (digitsAhead s)), past digitsAhead s) :=
  readDigits_from 0 s

/-- The word of a number does not depend on the `int` that it was read into. -/
theorem word_wrapInt (n : Nat) : BitVec.ofInt 16 (wrapInt n) = BitVec.ofNat 16 n := by
  apply BitVec.eq_of_toNat_eq
  have hmod : wrapInt n % 2 ^ 32 = n % 2 ^ 32 := Int.bmod_emod
  rw [BitVec.toNat_ofInt, BitVec.toNat_ofNat]
  omega

/-! The time fields -/

def TimBuf.time (v : TimBuf) : Nat → BitVec 16
  | 0 => v.hour
  | 1 => v.minute
  | _ => v.second

/-- `wrktim[3 + tf] = num; if (num > 59) wrktim[1] = 13;` where there are digits. -/
def TimBuf.readTime (v : TimBuf) (tf : Nat) (ds : List Byte) : TimBuf :=
  if ds = [] then v
  else
    let w := v.setTime tf (BitVec.ofNat 16 (number ds))
    if wrapInt (number ds) > 59 then { w with month := 13 } else w

def TimBuf.readTimes : Nat → TimBuf → List (List Byte × List Byte) → TimBuf
  | _, v, [] => v
  | tf, v, t :: times => readTimes (tf + 1) (v.readTime tf t.1) times

theorem bintimFields_eq (seps : List Byte) (tf : Nat) (v : TimBuf) (s : List Byte) :
    bintimFields seps tf v s =
      (TimBuf.readTimes tf v (scanTimes seps s).1, (scanTimes seps s).2) := by
  induction seps generalizing tf v s with
  | nil => rfl
  | cons sep seps ih =>
    have hread : (if digitNext s = true then
        (if (readDigits 0 s).1 > 59 then
            { v.setTime tf (BitVec.ofInt 16 (readDigits 0 s).1) with month := 13 }
          else v.setTime tf (BitVec.ofInt 16 (readDigits 0 s).1), (readDigits 0 s).2)
        else (v, s)) = (v.readTime tf (digitsAhead s), past digitsAhead s) := by
      by_cases hnext : digitNext s = true
      · rw [if_pos hnext, readDigits_number, TimBuf.readTime,
          if_neg ((digitNext_iff s).mp hnext), word_wrapInt]
      · have hnone : digitsAhead s = [] := not_not.mp (mt (digitNext_iff s).mpr hnext)
        rw [if_neg hnext, TimBuf.readTime, if_pos hnone, past, hnone, List.length_nil,
          List.drop_zero]
    rw [bintimFields]
    simp only [hread, scanTimes]
    generalize past digitsAhead s = rest
    cases rest with
    | nil => simp [charAhead, TimBuf.readTimes]
    | cons c rest =>
      by_cases hc : c = sep
      · simp [charAhead, hc, ih, TimBuf.readTimes, past]
      · simp [charAhead, hc, TimBuf.readTimes]

theorem time_setTime (v : TimBuf) (num : BitVec 16) {tf k : Nat} (htf : tf < 3) (hk : k < 3) :
    (v.setTime tf num).time k = if k = tf then num else v.time k := by
  interval_cases tf <;> interval_cases k <;> rfl

theorem setTime_frame (v : TimBuf) (tf : Nat) (num : BitVec 16) :
    (v.setTime tf num).year = v.year ∧ (v.setTime tf num).day = v.day ∧
      (v.setTime tf num).hundredth = v.hundredth := by
  unfold TimBuf.setTime
  split <;> exact ⟨rfl, rfl, rfl⟩

theorem readTime_frame (v : TimBuf) (tf : Nat) (ds : List Byte) :
    (v.readTime tf ds).year = v.year ∧ (v.readTime tf ds).day = v.day := by
  obtain ⟨hyear, hday, -⟩ := setTime_frame v tf (BitVec.ofNat 16 (number ds))
  unfold TimBuf.readTime
  split_ifs
  · exact ⟨rfl, rfl⟩
  · exact ⟨hyear, hday⟩
  · exact ⟨hyear, hday⟩

theorem time_readTime (v : TimBuf) (ds : List Byte) {tf k : Nat} (htf : tf < 3) (hk : k < 3) :
    (v.readTime tf ds).time k =
      if k = tf ∧ ds ≠ [] then BitVec.ofNat 16 (number ds) else v.time k := by
  have hset := time_setTime v (BitVec.ofNat 16 (number ds)) htf hk
  have hmonth : ∀ w : TimBuf, TimBuf.time { w with month := 13 } k = w.time k := by
    intro w
    interval_cases k <;> rfl
  by_cases hds : ds = []
  · rw [TimBuf.readTime, if_pos hds, if_neg fun h => h.2 hds]
  · rw [TimBuf.readTime, if_neg hds, if_congr (and_iff_left hds) rfl rfl, ← hset]
    dsimp only
    split
    · exact hmonth _
    · rfl

theorem readTimes_frame (tf : Nat) (v : TimBuf) (times : List (List Byte × List Byte)) :
    (TimBuf.readTimes tf v times).year = v.year ∧ (TimBuf.readTimes tf v times).day = v.day := by
  induction times generalizing tf v with
  | nil => exact ⟨rfl, rfl⟩
  | cons t times ih =>
    obtain ⟨hyear, hday⟩ := readTime_frame v tf t.1
    obtain ⟨hyear', hday'⟩ := ih (tf + 1) (v.readTime tf t.1)
    exact ⟨hyear'.trans hyear, hday'.trans hday⟩

/-- A time field that has digits is their number. -/
theorem time_readTimes {tf k : Nat} (v : TimBuf) (times : List (List Byte × List Byte))
    (hlen : tf + times.length ≤ 3) (hk : k < 3) :
    (k < tf → (TimBuf.readTimes tf v times).time k = v.time k) ∧
      (tf ≤ k → (times.getD (k - tf) ([], [])).1 ≠ [] →
        (TimBuf.readTimes tf v times).time k =
          BitVec.ofNat 16 (number (times.getD (k - tf) ([], [])).1)) := by
  induction times generalizing tf v with
  | nil =>
    constructor
    · intro _
      rfl
    · intro _ hwritten
      exact absurd rfl hwritten
  | cons t times ih =>
    rw [List.length_cons] at hlen
    obtain ⟨hbefore, hlater⟩ :=
      ih (v.readTime tf t.1) (show tf + 1 + times.length ≤ 3 by omega)
    have hread := time_readTime v t.1 (show tf < 3 by omega) hk
    constructor
    · intro hlt
      rw [TimBuf.readTimes, hbefore (by omega), hread, if_neg (by omega)]
    · intro hle hwritten
      rw [TimBuf.readTimes]
      rcases Nat.eq_or_lt_of_le hle with rfl | hlt
      · rw [Nat.sub_self, List.getD_cons_zero] at hwritten ⊢
        rw [hbefore (Nat.lt_succ_self _), hread, if_pos ⟨rfl, hwritten⟩]
      · obtain ⟨i, hi⟩ : ∃ i, k - tf = i + 1 := ⟨k - tf - 1, by omega⟩
        have hindex : k - (tf + 1) = i := by omega
        rw [hi, List.getD_cons_succ] at hwritten ⊢
        rw [hindex] at hlater
        exact hlater hlt hwritten

theorem length_scanTimes (seps s : List Byte) : (scanTimes seps s).1.length ≤ seps.length := by
  induction seps generalizing s with
  | nil => exact Nat.le_refl 0
  | cons sep seps ih =>
    simp only [scanTimes]
    split
    · simp
    · have hmore := ih (past (charAhead sep) (past digitsAhead s))
      simpa using hmore

/-! The fraction -/

/-- The first two digits of a fraction, or one with a zero behind it. -/
def hundredths (ds : List Byte) : Nat := number ((ds ++ [chr '0']).take 2)

theorem readHundredths_zero (num : Int) (s : List Byte) :
    readHundredths 0 num s = (num, past digitsAhead s) := by
  induction s generalizing num with
  | nil => rfl
  | cons c s ih =>
    by_cases hc : IsDigit c
    · rw [readHundredths, if_pos hc, Int.zero_mul, add_zero, (digitsAhead_digit hc s).2]
      exact ih num
    · rw [readHundredths, if_neg hc, (digitsAhead_other hc s).2]

theorem readHundredths_number {s : List Byte} (h : digitsAhead s ≠ []) :
    readHundredths 10 0 s = ((hundredths (digitsAhead s) : Int), past digitsAhead s) := by
  have hdigit : ∀ {c : Byte}, IsDigit c → (c.toNat : Int) - 48 = digitOf c := by
    intro c hc
    unfold IsDigit at hc
    unfold digitOf
    omega
  cases s with
  | nil => exact absurd rfl h
  | cons c s =>
    have hc : IsDigit c := by
      by_contra hno
      exact h (digitsAhead_other hno s).1
    obtain ⟨hahead, hpast⟩ := digitsAhead_digit hc s
    rw [readHundredths, if_pos hc, hahead, hpast, hdigit hc]
    cases s with
    | nil =>
      simp only [readHundredths, digitsAhead, past, List.takeWhile_nil, hundredths, number,
        List.nil_append, List.cons_append, List.take, List.foldl, Prod.mk.injEq]
      refine ⟨?_, rfl⟩
      have hzero : digitOf (chr '0') = 0 := by decide
      omega
    | cons d s =>
      by_cases hd : IsDigit d
      · obtain ⟨hahead', hpast'⟩ := digitsAhead_digit hd s
        have htenth : (10 : Int) / 10 / 10 = 0 := by decide
        rw [readHundredths, if_pos hd, htenth, readHundredths_zero, hahead', hpast', hdigit hd]
        simp only [hundredths, number, List.cons_append, List.take, List.foldl, Prod.mk.injEq,
          and_true]
        omega
      · obtain ⟨hahead', hpast'⟩ := digitsAhead_other hd s
        rw [readHundredths, if_neg hd, hahead', hpast']
        simp only [hundredths, number, List.nil_append, List.cons_append, List.take, List.foldl,
          Prod.mk.injEq, and_true]
        have hzero : digitOf (chr '0') = 0 := by decide
        omega

/-! The whole text -/

/-- A piece whose number the word `num` has. -/
def Says (ds : List Byte) (num : BitVec 16) : Prop := ds ≠ [] → num = BitVec.ofNat 16 (number ds)

theorem bintimEnd_scan (v : TimBuf) (w : Written) (s : List Byte) :
    (bintimEnd v s).2 = (scanEnd w s).2 ∧
      (bintimEnd v s).1.year = v.year ∧ (bintimEnd v s).1.day = v.day ∧
      (∀ tf < 3, Says ((scanEnd w s).1.time tf) ((bintimEnd v s).1.time tf)) ∧
      ((scanEnd w s).1.fraction ≠ [] → (bintimEnd v s).1.hundredth =
        BitVec.ofNat 16 (hundredths (scanEnd w s).1.fraction)) := by
  have htimes : ∀ tf < 3, ∀ x : TimBuf, Says ((scanEnd w s).1.time tf)
      ((TimBuf.readTimes 0 x (scanEnd w s).1.times).time tf) := by
    intro tf htf x hwritten
    have hlen : (scanEnd w s).1.times.length ≤ 3 := length_scanTimes _ _
    exact (time_readTimes x _ (by omega) htf).2 (Nat.zero_le _) hwritten
  obtain ⟨hyear, hday⟩ := readTimes_frame 0 v (scanEnd w s).1.times
  simp only [scanEnd, Written.time] at htimes hyear hday ⊢
  rw [bintimEnd, skipSpaces_eq, bintimFields_eq]
  generalize hscan : scanTimes ([':', ':', '.'].map chr) (past spacesAhead s) = scanned
  rw [hscan] at htimes hyear hday
  obtain ⟨times, rest⟩ := scanned
  dsimp only at htimes hyear hday ⊢
  by_cases hnext : digitNext rest = true
  · have hfraction := (digitNext_iff rest).mp hnext
    simp only [if_pos hnext, readHundredths_number hfraction, skipSpaces_eq, BitVec.ofInt_natCast]
    refine ⟨trivial, hyear, hday, ?_, fun _ => trivial⟩
    intro tf htf
    have hsame : ∀ x : TimBuf, ∀ n, TimBuf.time { x with hundredth := n } tf = x.time tf := by
      intro x n
      interval_cases tf <;> rfl
    rw [hsame]
    exact htimes tf htf v
  · have hnone : digitsAhead rest = [] := not_not.mp (mt (digitNext_iff rest).mpr hnext)
    have hpast : past digitsAhead rest = rest := by rw [past, hnone, List.length_nil, List.drop_zero]
    simp only [if_neg hnext, skipSpaces_eq, hpast]
    exact ⟨trivial, hyear, hday, fun tf htf => htimes tf htf v,
      fun hwritten => absurd hnone hwritten⟩

theorem bintimDate_scan (now : TimBuf) (num : Int) (s : List Byte) :
    (bintimDate now num s).2 = (scanDate s).2 ∧
      (bintimDate now num s).1.day = (if num ≥ 0 then BitVec.ofInt 16 num else now.day) ∧
      Says (scanDate s).1.2.2 (bintimDate now num s).1.year := by
  rw [bintimDate]
  generalize hstart : (if num ≥ 0 then { now with day := BitVec.ofInt 16 num } else now) = start
  have hday : start.day = if num ≥ 0 then BitVec.ofInt 16 num else now.day := by
    rw [← hstart]
    split <;> rfl
  obtain ⟨v, hmonth, hsame⟩ : ∃ v : TimBuf,
      (if s.length ≥ 3 ∧ s.head? ≠ some (chr '-') then
        ({ start with month := BitVec.ofNat 16 (findName s 12 1 (monthNames.drop 1)) }, s.drop 3)
      else (start, s)) = (v, past monthAhead s) ∧ v.day = start.day := by
    by_cases hname : s.length ≥ 3 ∧ s.head? ≠ some (chr '-')
    · have hlen : min 3 s.length = 3 := Nat.min_eq_left hname.1
      refine ⟨{ start with month := BitVec.ofNat 16 (findName s 12 1 (monthNames.drop 1)) }, ?_, rfl⟩
      rw [if_pos hname, past, monthAhead, if_pos hname, List.length_take, hlen]
    · refine ⟨start, ?_, rfl⟩
      rw [if_neg hname, past, monthAhead, if_neg hname, List.length_nil, List.drop_zero]
  have hkept := hsame.trans hday
  simp only [hmonth, scanDate]
  generalize past monthAhead s = t
  cases t with
  | nil => exact ⟨rfl, hkept, fun hwritten => absurd rfl hwritten⟩
  | cons c rest =>
    by_cases hc : c = chr '-'
    · have hdash : charAhead (chr '-') (c :: rest) ≠ [] := by simp [charAhead, hc]
      have hpast : past (charAhead (chr '-')) (c :: rest) = rest := by simp [past, charAhead, hc]
      simp only [if_pos hc, if_neg hdash, hpast]
      by_cases hnext : digitNext rest = true
      · simp only [if_pos hnext, readDigits_number]
        exact ⟨trivial, hkept, fun _ => word_wrapInt _⟩
      · have hnone : digitsAhead rest = [] := not_not.mp (mt (digitNext_iff rest).mpr hnext)
        simp only [if_neg hnext, past, hnone, List.length_nil, List.drop_zero]
        exact ⟨trivial, hkept, fun hwritten => absurd rfl hwritten⟩
    · have hdash : charAhead (chr '-') (c :: rest) = [] := by simp [charAhead, hc]
      simp only [if_neg hc, if_pos hdash]
      exact ⟨trivial, hkept, fun hwritten => absurd rfl hwritten⟩

/-- **The words of a text.**  What is left of it is what is in no piece, and every word that comes
    from the text is a number of it; the day only where its `int` is not negative. -/
theorem bintimWords_scan (now : TimBuf) (s : List Byte) :
    (bintimWords now s).2 = (scan s).2 ∧
      (wrapInt (number (scan s).1.day) ≥ 0 → Says (scan s).1.day (bintimWords now s).1.day) ∧
      Says (scan s).1.year (bintimWords now s).1.year ∧
      (∀ tf < 3, Says ((scan s).1.time tf) ((bintimWords now s).1.time tf)) ∧
      ((scan s).1.fraction ≠ [] → (bintimWords now s).1.hundredth =
        BitVec.ofNat 16 (hundredths (scan s).1.fraction)) := by
  simp only [bintimWords, bintimStart, bintimDay, skipSpaces_eq, scan]
  generalize past spacesAhead s = t
  obtain ⟨num, hday, hwritten⟩ : ∃ num : Int,
      (if digitNext t = true then readDigits 0 t else (-1, t)) = (num, past digitsAhead t) ∧
      (digitsAhead t ≠ [] → num = wrapInt (number (digitsAhead t))) := by
    by_cases hnext : digitNext t = true
    · exact ⟨_, by rw [if_pos hnext, readDigits_number], fun _ => rfl⟩
    · have hnone : digitsAhead t = [] := not_not.mp (mt (digitNext_iff t).mpr hnext)
      refine ⟨-1, ?_, fun h => absurd hnone h⟩
      rw [if_neg hnext, past, hnone, List.length_nil, List.drop_zero]
  simp only [hday]
  generalize digitsAhead t = day at hwritten
  generalize past digitsAhead t = rest
  have hword : Says day (BitVec.ofInt 16 num) := by
    intro h
    rw [hwritten h, word_wrapInt]
  have hsays : ∀ (v : TimBuf) (w : Written) (r : List Byte),
      (wrapInt (number w.day) ≥ 0 → Says w.day v.day) → Says w.year v.year →
      (bintimEnd v r).2 = (scanEnd w r).2 ∧
        (wrapInt (number (scanEnd w r).1.day) ≥ 0 →
          Says (scanEnd w r).1.day (bintimEnd v r).1.day) ∧
        Says (scanEnd w r).1.year (bintimEnd v r).1.year ∧
        (∀ tf < 3, Says ((scanEnd w r).1.time tf) ((bintimEnd v r).1.time tf)) ∧
        ((scanEnd w r).1.fraction ≠ [] → (bintimEnd v r).1.hundredth =
          BitVec.ofNat 16 (hundredths (scanEnd w r).1.fraction)) := by
    intro v w r hd hy
    obtain ⟨hleft, hyear, hday, htimes, hfraction⟩ := bintimEnd_scan v w r
    rw [hyear, hday]
    exact ⟨hleft, hd, hy, htimes, hfraction⟩
  cases rest with
  | nil => exact hsays _ _ _ (fun _ => hword) (fun hwritten => absurd rfl hwritten)
  | cons c cs =>
    by_cases hc : c = chr '-'
    · -- an absolute time
      obtain ⟨hleft, hday, hyear⟩ := bintimDate_scan now num cs
      have hdash : charAhead (chr '-') (c :: cs) ≠ [] := by simp [charAhead, hc]
      have hpast : past (charAhead (chr '-')) (c :: cs) = cs := by simp [past, charAhead, hc]
      simp only [if_pos hc, if_neg hdash, hpast]
      rw [← hleft]
      apply hsays
      · intro hnonneg hne
        rw [hday, if_pos (by rw [hwritten hne]; exact hnonneg)]
        exact hword hne
      · exact hyear
    · have hdash : charAhead (chr '-') (c :: cs) = [] := by simp [charAhead, hc]
      simp only [if_neg hc, if_pos hdash]
      exact hsays _ _ _ (fun _ => hword) (fun hwritten => absurd rfl hwritten)

/-! ### Reading right -/

/-- Every number that is written is in its word, hundredths by their first two digits, and a delta
    time has a number of days. -/
structure ReadsRight (w : Written) (v : TimBuf) : Prop where
  day : w.day ≠ [] → v.day.toNat = number w.day
  year : w.year ≠ [] → v.year.toNat = number w.year
  time : ∀ tf < 3, w.time tf ≠ [] → (v.time tf).toNat = number (w.time tf)
  hundredth : w.fraction ≠ [] → v.hundredth.toNat = hundredths w.fraction
  delta : w.dash = [] → w.day ≠ []

/-- The text is read to its end, and right. -/
def ReadsText (now : TimBuf) (s : List Byte) : Prop :=
  (scan s).2 = [] ∧ ReadsRight (scan s).1 (bintimWords now s).1

/-- Every number has room in a word, and a delta time has a number of days. -/
structure Fits (w : Written) : Prop where
  day : number w.day < 2 ^ 16
  year : number w.year < 2 ^ 16
  time : ∀ tf < 3, number (w.time tf) < 2 ^ 16
  delta : w.dash = [] → w.day ≠ []

theorem Says.right_iff {ds : List Byte} {num : BitVec 16} (h : Says ds num) :
    (ds ≠ [] → num.toNat = number ds) ↔ number ds < 2 ^ 16 := by
  by_cases hds : ds = []
  · simp [hds]
  · have hnum := h hds
    constructor
    · intro hright
      rw [← hright hds]
      exact num.isLt
    · intro hlt _
      rw [hnum, BitVec.toNat_ofNat, Nat.mod_eq_of_lt hlt]

theorem hundredths_lt {ds : List Byte} (h : Digits ds) : hundredths ds < 100 := by
  have hdigits : Digits ((ds ++ [chr '0']).take 2) := by
    intro c hc
    have hall : Digits (ds ++ [chr '0']) := digits_append.mpr ⟨h, by decide⟩
    exact hall c (List.mem_of_mem_take hc)
  have hlt := number_lt hdigits
  have hlen : ((ds ++ [chr '0']).take 2).length ≤ 2 := List.length_take_le 2 _
  calc hundredths ds < 10 ^ ((ds ++ [chr '0']).take 2).length := hlt
    _ ≤ 10 ^ 2 := Nat.pow_le_pow_right (by decide) hlen

theorem digits_fraction (s : List Byte) : Digits (scan s).1.fraction := by
  intro c hc
  simpa using List.mem_takeWhile_imp hc

/-- **What `sys$bintim` reads right.**  When it returns success the text has been read to its end,
    and every number in it is in its word if and only if every number is below 65536 and a delta
    time has a number of days. -/
theorem bintim_reads_right_iff (combine : Int → Quad → Int → Option (Nat × Quad))
    (gettim : Nat × Quad) (stack : TimBuf) (s : List Byte) (timadr timadr' : Quad) (sts : Nat)
    (hret : sysBintim combine gettim stack s timadr = some (sts, timadr'))
    (hsts : sts &&& 1 = 1) :
    ReadsText ((sysNumtim gettim none).2.getD stack) s ↔ Fits (scan s).1 := by
  unfold sysBintim at hret
  generalize (sysNumtim gettim none).2.getD stack = now at hret ⊢
  dsimp only at hret
  obtain ⟨hleft, hday, hyear, htimes, hfraction⟩ := bintimWords_scan now s
  have hdone : (bintimWords now s).2 = [] := by
    generalize bintimWords now s = words at hret ⊢
    obtain ⟨wrktim, rest⟩ := words
    cases rest with
    | nil => rfl
    | cons c rest =>
      -- `SS$_IVTIME` is no success
      have hfail : ivTime = sts := congrArg Prod.fst (Option.some.inj hret)
      rw [← hfail] at hsts
      exact absurd hsts (by decide)
  constructor
  · rintro ⟨-, hright⟩
    refine ⟨?_, hyear.right_iff.mp hright.year,
      fun tf htf => (htimes tf htf).right_iff.mp (hright.time tf htf), hright.delta⟩
    by_cases hwritten : (scan s).1.day = []
    · rw [hwritten]
      decide
    · rw [← hright.day hwritten]
      exact BitVec.isLt _
  · intro hfits
    refine ⟨hleft ▸ hdone, ?_, hyear.right_iff.mpr hfits.year,
      fun tf htf => (htimes tf htf).right_iff.mpr (hfits.time tf htf), ?_, hfits.delta⟩
    · have hint : wrapInt (number (scan s).1.day) = number (scan s).1.day := by
        have hlt := hfits.day
        exact wrapInt_of_small ⟨by omega, by omega⟩
      have hsays := hday (by rw [hint]; exact Int.natCast_nonneg _)
      exact hsays.right_iff.mpr hfits.day
    · intro hwritten
      have hlt := hundredths_lt (digits_fraction s)
      rw [hfraction hwritten, BitVec.toNat_ofNat, Nat.mod_eq_of_lt (by omega)]

/-- "1 02:03:04.05" -/
theorem delta_reads_right :
    ReadsText ⟨0, 0, 0, 0, 0, 0, 0⟩
      (['1', ' ', '0', '2', ':', '0', '3', ':', '0', '4', '.', '0', '5'].map chr) :=
  (bintim_reads_right_iff sysCombineDateTime (0, 0) ⟨0, 0, 0, 0, 0, 0, 0⟩
    (['1', ' ', '0', '2', ':', '0', '3', ':', '0', '4', '.', '0', '5'].map chr) 0
    (deltaTime 1 738405) normal (by decide +kernel) (by decide)).mpr
    ⟨by decide, by decide, by decide, by decide⟩

/-- "65536" is a delta time of no days. -/
theorem days_misread :
    ¬ ∀ (gettim : Nat × Quad) (stack : TimBuf) (s : List Byte) (timadr timadr' : Quad) (sts : Nat),
      sysBintim sysCombineDateTime gettim stack s timadr = some (sts, timadr') → sts &&& 1 = 1 →
      ReadsText ((sysNumtim gettim none).2.getD stack) s := by
  intro h
  have hread := h (0, 0) ⟨0, 0, 0, 0, 0, 0, 0⟩ (['6', '5', '5', '3', '6'].map chr) 0 0 normal
    (by decide) (by decide)
  exact absurd (hread.2.day (by decide)) (by decide)

end FreeVMS.Rtl
