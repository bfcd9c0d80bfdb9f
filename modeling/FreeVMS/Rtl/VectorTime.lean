import FreeVMS.Lib.Gregorian
import FreeVMS.Rtl.Quadword

/-!
# Times in seven words

`sys_numtim.c` and `lib_cvt_vectim.c`: a quadword time as year, month, day, hours, minutes, seconds
and hundredths, and back.  A delta time has year and month 0 and a number of days.
-/

namespace FreeVMS.Rtl

open Lib.Gregorian Lib.Digits

/-- From the first of January 1601 to the 17th of November 1858. -/
def offsetDays : Nat := 94187

def baseYear : Nat := 1601

def quadCenturyDays : Nat := 146097

def centuryDays : Nat := 36524

def quadYearDays : Nat := 1461

def yearDays : Nat := 365

/-- `unsigned short timbuf[7]` -/
structure TimBuf where
  year : BitVec 16
  month : BitVec 16
  day : BitVec 16
  hour : BitVec 16
  minute : BitVec 16
  second : BitVec 16
  hundredth : BitVec 16
deriving DecidableEq

/-! ### `sys$numtim` -/

def monthDays : List Nat := [31, 29, 31, 30, 31, 30, 31, 31, 30, 31, 30, 31]

/-- `while (date > *mthptr) { date -= *mthptr++; month++; }` -/
def findMonth (date month : Nat) : List Nat → Nat × Nat
  | [] => (month, date)
  | days :: mthptr => if date > days then findMonth (date - days) (month + 1) mthptr else (month, date)

/-- The last period of a cycle is a day longer. -/
def lastIsLonger (month : Nat) : Nat := if month = 4 then 3 else month

/-- The cycles of 400, 100, 4 and 1 years: the year, its place among the four years, and the day of
    the year from 0 on. -/
def findYear (date : Nat) : Nat × Nat × Nat :=
  let date := date + offsetDays
  let year := baseYear + date / quadCenturyDays * 400
  let date := date % quadCenturyDays
  let month := lastIsLonger (date / centuryDays)
  let date := date - month * centuryDays
  let year := year + month * 100
  let year := year + date / quadYearDays * 4
  let date := date % quadYearDays
  let month := lastIsLonger (date / yearDays)
  let date := date - month * yearDays
  (year + month, month, date)

/-- `date++`, and again in years which have no February 29th. -/
def adjustFebruary (year month date : Nat) : Nat :=
  if date > 58 then
    if month ≠ 3 then date + 2
    else if year % 100 = 0 ∧ year % 400 ≠ 0 then date + 2
    else date + 1
  else date + 1

/-- The date branch of `sys$numtim`, for `date >= 0`: year, month and day. -/
def numtimDate (date : Nat) : Nat × Nat × Nat :=
  let found := findYear date
  let monthDay := findMonth (adjustFebruary found.1 found.2.1 found.2.2) 1 monthDays
  (found.1, monthDay)

/-- The seven words, with the last four from `time >= 0`. -/
def numtimWords (year month day : BitVec 16) (time : Nat) : TimBuf where
  year := year
  month := month
  day := day
  hundredth := BitVec.ofNat 16 (time % 100)
  second := BitVec.ofNat 16 (time / 100 % 60)
  minute := BitVec.ofNat 16 (time / 100 / 60 % 60)
  hour := BitVec.ofNat 16 (time / 100 / 60 / 60)

/-- `sys$numtim` from the days and hundredths on.  What `lib$day` returns has one sign, so that
    `-date` and `-time` are not negative where they are taken. -/
def numtimFields (date time : Int) : TimBuf :=
  if date < 0 ∨ time < 0 then numtimWords 0 0 (BitVec.ofInt 16 (-date)) (-time).toNat
  else
    let (year, month, day) := numtimDate date.toNat
    numtimWords (BitVec.ofNat 16 year) (BitVec.ofNat 16 month) (BitVec.ofNat 16 day) time.toNat

/-- `sys$numtim`: the status, and `timbuf` where it is written. -/
def sysNumtim (gettim : Nat × Quad) (timadr : Option Quad) : Nat × Option TimBuf :=
  match libDay gettim timadr with
  | (sts, none) => (sts, none)
  | (sts, some (date, time)) =>
      if sts &&& 1 = 0 then (sts, none) else (normal, some (numtimFields date time))

/-! ### `lib$cvt_vectim` -/

def monthEnd : List Nat := [0, 31, 59, 90, 120, 151, 181, 212, 243, 273, 304, 334, 365]

/-- The `leap` of `lib$cvt_vectim`. -/
def leapDay (year month : Nat) : Nat :=
  if month ≥ 2 then
    if year % 4 = 0 then
      if year % 100 = 0 then if year % 400 = 0 then 1 else 0
      else 1
    else 0
  else 0

/-- The days of a date, or none where the source sets `SS$_IVTIME`. -/
def packDate (year month : Nat) (days : BitVec 32) : Option (BitVec 32) :=
  let leap := leapDay year month
  if year ≥ 1858 ∧ year ≤ 9999 ∧ month ≥ 1 ∧ month ≤ 12 ∧ 1 ≤ days.toNat then
    let days := days + BitVec.ofNat 32 (monthEnd.getD (month - 1) 0)
    let days := if month > 2 then days + BitVec.ofNat 32 leap else days
    if days.toNat ≤ monthEnd.getD month 0 + leap then
      let year := year - baseYear
      some (days +
        BitVec.ofInt 32 (year * 365 + year / 4 - year / 100 + year / 400 - offsetDays - 1))
    else none
  else none

/-- `delta` -/
def TimBuf.delta (timbuf : TimBuf) : Bool := timbuf.year = 0 ∧ timbuf.month = 0

/-- The days of a vector, or none where the source sets `SS$_IVTIME`. -/
def packDays (timbuf : TimBuf) : Option (BitVec 32) :=
  let days := timbuf.day.setWidth 32
  let packed :=
    if timbuf.delta then some days else packDate timbuf.year.toNat timbuf.month.toNat days
  if timbuf.hour.toNat > 23 ∨ timbuf.minute.toNat > 59 ∨ timbuf.second.toNat > 59 ∨
      timbuf.hundredth.toNat > 99 then none
  else packed

/-- `day_time` -/
def TimBuf.dayTime (timbuf : TimBuf) : Nat :=
  timbuf.hour.toNat * 360000 + timbuf.minute.toNat * 6000 + timbuf.second.toNat * 100 +
    timbuf.hundredth.toNat

/-- The two's complement of `*timadr`. -/
def complementTime (timadr : Quad) : Quad := ofTimeBytes (complementBytes (timeBytes timadr))

/-- `lib$cvt_vectim` with `*timadr`, on a `sys$__combine_date_time`: the status and the new
    `*timadr`. -/
def libCvtVectim (combine : Int → Quad → Int → Option (Nat × Quad)) (timbuf : TimBuf)
    (timadr : Quad) : Option (Nat × Quad) :=
  match packDays timbuf with
  | none => some (ivTime, timadr)
  | some days =>
      (combine days.toInt timadr timbuf.dayTime).map fun (sts, timadr) =>
        (sts, if timbuf.delta then complementTime timadr else timadr)

/-! ### The date of a day -/

/-- Day 0. -/
def baseDate : Date := ⟨1858, 11, 17, by decide⟩

/-- The days of a month in the table `month_days`. -/
def tableLength (month : Nat) : Nat := if month = 2 then 29 else commonLength month

/-- The days before a month in the table. -/
def tableStart (month : Nat) : Nat :=
  if 2 < month then commonStart month + 1 else commonStart month

/-- The month and the day that the loop finds add up to the day of a leap year. -/
theorem findMonth_table : ∀ date < 367, 1 ≤ date →
    (1 ≤ (findMonth date 1 monthDays).1 ∧ (findMonth date 1 monthDays).1 ≤ 12) ∧
      1 ≤ (findMonth date 1 monthDays).2 ∧
      (findMonth date 1 monthDays).2 ≤ tableLength (findMonth date 1 monthDays).1 ∧
      date = tableStart (findMonth date 1 monthDays).1 + (findMonth date 1 monthDays).2 := by
  decide +kernel

theorem commonStart_after_february {month : Nat} (h : 2 < month) : 59 ≤ commonStart month := by
  induction month with
  | zero => omega
  | succ k ih =>
    obtain ⟨j, rfl⟩ : ∃ j, k = j + 1 := ⟨k - 1, by omega⟩
    by_cases hj : 2 < j + 1
    · exact le_trans (ih hj) (Nat.le_add_right _ _)
    · have hone : j = 1 := by omega
      subst hone
      decide

/-- The place of a day in the table: in a common year the 29th of February is left out. -/
def tableDay (year day : Nat) : Nat := if 58 < day ∧ ¬ Leap year then day + 2 else day + 1

/-- The date of a day of a year, from 0 on. -/
theorem findMonth_date {year day : Nat} (h : day < yearLength year) :
    IsDate year (findMonth (tableDay year day) 1 monthDays).1
        (findMonth (tableDay year day) 1 monthDays).2 ∧
      monthStart year (findMonth (tableDay year day) 1 monthDays).1 +
        (findMonth (tableDay year day) 1 monthDays).2 = day + 1 := by
  have hbound : 1 ≤ tableDay year day ∧ tableDay year day < 367 := by
    by_cases hleap : Leap year
    · simp only [tableDay, yearLength, hleap, if_true, not_true, and_false, if_false] at h ⊢
      omega
    · simp only [tableDay, yearLength, hleap, if_false, not_false_eq_true, and_true] at h ⊢
      split <;> omega
  obtain ⟨hmonth, hfirst, hlast, hsum⟩ := findMonth_table _ hbound.2 hbound.1
  revert hmonth hfirst hlast hsum
  generalize findMonth (tableDay year day) 1 monthDays = found
  obtain ⟨month, date⟩ := found
  intro hmonth hfirst hlast hsum
  dsimp only at hmonth hfirst hlast hsum ⊢
  have htwo : commonStart 2 = 31 := rfl
  have htwoLength : commonLength 2 = 28 := rfl
  simp only [tableDay, tableStart, tableLength] at hsum hlast
  by_cases hleap : Leap year
  · simp only [IsDate, monthLength, monthStart, hleap, and_true, not_true, and_false,
      if_false] at hsum ⊢
    exact ⟨⟨hmonth, hfirst, hlast⟩, by omega⟩
  · simp only [IsDate, monthLength, monthStart, hleap, and_true, and_false, not_false_eq_true,
      if_false] at hsum ⊢
    have hcases : month = 1 ∨ month = 2 ∨ 2 < month := by omega
    rcases hcases with rfl | rfl | hlate
    · have hone : commonStart 1 = 0 ∧ commonLength 1 = 31 := ⟨rfl, rfl⟩
      rw [if_neg (show ¬ 2 < 1 by decide)] at hsum
      rw [if_neg (show ¬ 1 = 2 by decide)] at hlast
      exact ⟨⟨hmonth, hfirst, hlast⟩, by split at hsum <;> omega⟩
    · -- the 29th of February is never reached
      rw [if_neg (lt_irrefl 2)] at hsum
      rw [if_pos rfl] at hlast
      refine ⟨⟨hmonth, hfirst, ?_⟩, ?_⟩ <;> split at hsum <;> omega
    · have hstart := commonStart_after_february hlate
      rw [if_pos hlate] at hsum
      rw [if_neg (by omega)] at hlast
      exact ⟨⟨hmonth, hfirst, hlast⟩, by split at hsum <;> omega⟩

/-- `quads` periods of 400 years, `centuries` of 100, `fours` of 4 and `years` behind 1600. -/
theorem leap_cycles (quads centuries fours years : Nat) (hc : centuries < 4) (hf : fours < 25)
    (hy : years < 4) :
    Leap (baseYear + quads * 400 + centuries * 100 + fours * 4 + years) ↔
      years = 3 ∧ (fours = 24 → centuries = 3) := by
  simp only [Leap, baseYear]
  omega

theorem daysThrough_cycles (quads centuries fours years : Nat) (hc : centuries < 4)
    (hf : fours < 25) (hy : years < 4) :
    daysThrough ((baseYear + quads * 400 + centuries * 100 + fours * 4 + years : Nat) - 1) =
      daysThrough 1600 + quads * quadCenturyDays + centuries * centuryDays + fours * quadYearDays +
        years * yearDays := by
  simp only [daysThrough, baseYear, quadCenturyDays, centuryDays, quadYearDays, yearDays]
  push_cast
  omega

theorem lastIsLonger_spec (date period : Nat) (hp : 0 < period) (h : date ≤ 4 * period) :
    lastIsLonger (date / period) < 4 ∧
      date = lastIsLonger (date / period) * period + (date - lastIsLonger (date / period) * period) ∧
      (lastIsLonger (date / period) < 3 → date - lastIsLonger (date / period) * period < period) ∧
      date - lastIsLonger (date / period) * period ≤ period := by
  have hdiv := Nat.div_add_mod date period
  have hmod := Nat.mod_lt date hp
  have hle : date / period ≤ 4 := Nat.div_le_of_le_mul (by linarith)
  generalize date / period = quotient at hdiv hle ⊢
  interval_cases quotient <;> simp [lastIsLonger] <;> omega

/-- The February adjustment of the source is the place in the table. -/
theorem adjustFebruary_eq {year month : Nat} (day : Nat) (h : month = 3 ↔ year % 4 = 0) :
    adjustFebruary year month day = tableDay year day := by
  simp only [adjustFebruary, tableDay, Leap]
  grind

/-- The cycles of `sys$numtim` find a year, its place among four, and a day in it. -/
theorem findYear_spec (date : Nat) :
    ∃ year month day, findYear date = (year, month, day) ∧ (month = 3 ↔ year % 4 = 0) ∧
      day < yearLength year ∧
      daysThrough ((year : Int) - 1) + day + 1 = baseDate.number + date := by
  have hbase : baseDate.number = daysThrough 1600 + offsetDays + 1 := by decide
  have hn : (date : Int) = ((date + offsetDays : Nat) : Int) - offsetDays := by push_cast; omega
  rw [hbase, hn]
  simp only [findYear]
  generalize date + offsetDays = n
  obtain ⟨hc, hcsum, hcless, hcle⟩ := lastIsLonger_spec (n % quadCenturyDays) centuryDays
    (by decide) (by simp only [quadCenturyDays, centuryDays]; omega)
  generalize lastIsLonger (n % quadCenturyDays / centuryDays) = centuries at hc hcsum hcless hcle ⊢
  generalize n % quadCenturyDays - centuries * centuryDays = inCentury at hcsum hcless hcle ⊢
  obtain ⟨hy, hysum, hyless, hyle⟩ := lastIsLonger_spec (inCentury % quadYearDays) yearDays
    (by decide) (by simp only [quadYearDays, yearDays]; omega)
  generalize lastIsLonger (inCentury % quadYearDays / yearDays) = years at hy hysum hyless hyle ⊢
  generalize inCentury % quadYearDays - years * yearDays = day at hysum hyless hyle ⊢
  have hf : inCentury / quadYearDays < 25 := by
    simp only [quadYearDays, centuryDays] at hcle ⊢
    omega
  have hdays := daysThrough_cycles (n / quadCenturyDays) centuries (inCentury / quadYearDays) years
    hc hf hy
  have hleap := leap_cycles (n / quadCenturyDays) centuries (inCentury / quadYearDays) years hc hf hy
  refine ⟨_, _, _, rfl, ?_, ?_, ?_⟩
  · simp only [baseYear]
    omega
  · simp only [centuryDays, quadYearDays, yearDays] at *
    rw [yearLength]
    by_cases hl : years = 3 ∧ (inCentury / 1461 = 24 → centuries = 3)
    · rw [if_pos (hleap.mpr hl)]
      omega
    · rw [if_neg (mt hleap.mp hl)]
      rw [not_and, Classical.not_imp] at hl
      rcases Nat.lt_or_ge years 3 with hlt | hge
      · exact hyless hlt
      · have hlast := hl (by omega)
        have hshort := hcless (by omega)
        omega
  · rw [hdays]
    simp only [quadCenturyDays, centuryDays, quadYearDays, yearDays] at *
    push_cast
    omega

/-- **The date of a day.**  For every number of days `sys$numtim` finds a date, and the date has
    the number of that day. -/
theorem numtimDate_date (date : Nat) :
    IsDate (numtimDate date).1 (numtimDate date).2.1 (numtimDate date).2.2 ∧
      Lib.Gregorian.number (numtimDate date).1 (numtimDate date).2.1 (numtimDate date).2.2 =
        baseDate.number + date := by
  obtain ⟨year, month, day, hfound, hmonth, hday, hnumber⟩ := findYear_spec date
  obtain ⟨hdate, hsum⟩ := findMonth_date hday
  have heq : numtimDate date = (year, findMonth (tableDay year day) 1 monthDays) := by
    rw [numtimDate, hfound, adjustFebruary_eq day hmonth]
  generalize numtimDate date = found at heq ⊢
  generalize findMonth (tableDay year day) 1 monthDays = monthDay at heq hdate hsum
  subst heq
  refine ⟨hdate, ?_⟩
  simp only [Lib.Gregorian.number]
  omega

end FreeVMS.Rtl
