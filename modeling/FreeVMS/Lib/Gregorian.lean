import Mathlib.Logic.Function.Iterate
import Mathlib.Tactic.IntervalCases

/-!
# The Gregorian calendar

Dates of the proleptic Gregorian calendar, the day after a date, and the number of a day.  The number
is a closed formula; that it counts the days (`number_next`) and that it tells the dates apart
(`number_injective`) is what a program needs that computes with it.
-/

namespace FreeVMS.Lib.Gregorian

/-- Every fourth year, but of the hundreds only every fourth. -/
def Leap (year : Nat) : Prop := year % 4 = 0 ∧ (year % 100 = 0 → year % 400 = 0)

instance (year : Nat) : Decidable (Leap year) := inferInstanceAs (Decidable (_ ∧ _))

/-- The days of a month, from 1 to 12, in a common year. -/
def commonLength : Nat → Nat
  | 2 => 28
  | 4 => 30
  | 6 => 30
  | 9 => 30
  | 11 => 30
  | _ => 31

def monthLength (year month : Nat) : Nat :=
  if month = 2 ∧ Leap year then 29 else commonLength month

/-- The days of a common year before a month. -/
def commonStart : Nat → Nat
  | 0 => 0
  | 1 => 0
  | month + 1 => commonStart month + commonLength month

/-- The days of a year before a month. -/
def monthStart (year month : Nat) : Nat :=
  if 2 < month ∧ Leap year then commonStart month + 1 else commonStart month

/-- A month and a day of a year. -/
def IsDate (year month day : Nat) : Prop :=
  (1 ≤ month ∧ month ≤ 12) ∧ 1 ≤ day ∧ day ≤ monthLength year month

instance (year month day : Nat) : Decidable (IsDate year month day) :=
  inferInstanceAs (Decidable (_ ∧ _))

@[ext] structure Date where
  year : Nat
  month : Nat
  day : Nat
  isDate : IsDate year month day

/-- The days in the years up to a year, from year 1 on. -/
def daysThrough (year : Int) : Int := year * 365 + year / 4 - year / 100 + year / 400

/-- The number of a day, the first of January of the year 1 being number 1. -/
def number (year month day : Nat) : Int := daysThrough (year - 1) + monthStart year month + day

def Date.number (date : Date) : Int := Gregorian.number date.year date.month date.day

/-! ### Months and years -/

theorem commonLength_pos (month : Nat) : 0 < commonLength month := by
  unfold commonLength
  split <;> decide

theorem monthLength_pos (year month : Nat) : 0 < monthLength year month := by
  unfold monthLength
  split
  · decide
  · exact commonLength_pos month

theorem monthLength_le (year month : Nat) : monthLength year month ≤ 31 := by
  unfold monthLength commonLength
  split
  · decide
  · split <;> decide

theorem monthStart_succ (year : Nat) {month : Nat} (h : 1 ≤ month) :
    monthStart year (month + 1) = monthStart year month + monthLength year month := by
  obtain ⟨k, rfl⟩ : ∃ k, month = k + 1 := ⟨month - 1, by omega⟩
  have hcommon : commonStart (k + 1 + 1) = commonStart (k + 1) + commonLength (k + 1) := rfl
  by_cases hleap : Leap year
  · have htwo : commonLength 2 = 28 := rfl
    simp only [monthStart, monthLength, hleap, and_true, hcommon]
    by_cases hk : k = 1
    · subst hk
      rfl
    · split <;> split <;> split <;> omega
  · simp only [monthStart, monthLength, hleap, and_false, if_false, hcommon]

/-- A month ends before a later one begins. -/
theorem monthStart_lt (year : Nat) {month month' : Nat} (h : 1 ≤ month) (hlt : month < month') :
    monthStart year month + monthLength year month ≤ monthStart year month' := by
  induction month' with
  | zero => omega
  | succ k ih =>
    rw [monthStart_succ year (by omega)]
    by_cases hk : month = k
    · rw [hk]
    · have hle := ih (by omega)
      omega

/-- The days of a year. -/
def yearLength (year : Nat) : Nat := if Leap year then 366 else 365

theorem yearEnd (year : Nat) : monthStart year 12 + monthLength year 12 = yearLength year := by
  simp only [monthStart, monthLength, yearLength, show commonStart 12 = 334 from rfl,
    show commonLength 12 = 31 from rfl]
  split <;> simp_all

theorem daysThrough_year (year : Nat) :
    daysThrough year = daysThrough (year - 1) + yearLength year := by
  by_cases hleap : Leap year
  · rw [yearLength, if_pos hleap, daysThrough, daysThrough]
    unfold Leap at hleap
    omega
  · rw [yearLength, if_neg hleap, daysThrough, daysThrough]
    unfold Leap at hleap
    omega

theorem daysThrough_mono {a b : Int} (h : a ≤ b) : daysThrough a ≤ daysThrough b := by
  simp only [daysThrough]
  omega

/-- The day of the year is one of the days of the year. -/
theorem day_of_year {year month day : Nat} (h : IsDate year month day) :
    1 ≤ monthStart year month + day ∧ monthStart year month + day ≤ yearLength year := by
  obtain ⟨⟨hfirst, hlast⟩, hday, hlen⟩ := h
  have hend := yearEnd year
  by_cases htwelve : month = 12
  · rw [htwelve] at hlen ⊢
    omega
  · have hlt := monthStart_lt year hfirst (show month < 12 by omega)
    omega

/-! ### The number of a day -/

/-- In a later year the numbers are higher. -/
theorem number_lt_of_year {year month day year' month' day' : Nat} (h : IsDate year month day)
    (h' : IsDate year' month' day') (hlt : year < year') :
    number year month day < number year' month' day' := by
  have hend := daysThrough_year year
  have hmono := daysThrough_mono (show (year : Int) ≤ (year' : Int) - 1 by omega)
  have hday := day_of_year h
  have hday' := day_of_year h'
  simp only [number]
  omega

theorem number_lt_of_month {year month day month' day' : Nat} (h : IsDate year month day)
    (h' : IsDate year month' day') (hlt : month < month') :
    number year month day < number year month' day' := by
  have hstart := monthStart_lt year h.1.1 hlt
  have hday := h.2
  have hday' := h'.2
  simp only [number]
  omega

/-- Different dates have different numbers. -/
theorem number_injective {year month day year' month' day' : Nat} (h : IsDate year month day)
    (h' : IsDate year' month' day')
    (heq : number year month day = number year' month' day') :
    year = year' ∧ month = month' ∧ day = day' := by
  have hyear : year = year' := by
    rcases lt_trichotomy year year' with hlt | heq' | hgt
    · exact absurd heq (number_lt_of_year h h' hlt).ne
    · exact heq'
    · exact absurd heq (number_lt_of_year h' h hgt).ne'
  subst hyear
  have hmonth : month = month' := by
    rcases lt_trichotomy month month' with hlt | heq' | hgt
    · exact absurd heq (number_lt_of_month h h' hlt).ne
    · exact heq'
    · exact absurd heq (number_lt_of_month h' h hgt).ne'
  subst hmonth
  simp only [number] at heq
  omega

theorem Date.eq_of_number {date date' : Date} (h : date.number = date'.number) :
    date = date' := by
  obtain ⟨hyear, hmonth, hday⟩ := number_injective date.isDate date'.isDate h
  exact Date.ext hyear hmonth hday

/-! ### The day after -/

/-- The day after a date. -/
def Date.next (date : Date) : Date :=
  if hday : date.day < monthLength date.year date.month then
    ⟨date.year, date.month, date.day + 1, date.isDate.1, by omega, hday⟩
  else if hmonth : date.month < 12 then
    ⟨date.year, date.month + 1, 1, ⟨by omega, hmonth⟩, le_refl 1, monthLength_pos _ _⟩
  else ⟨date.year + 1, 1, 1, by decide, le_refl 1, monthLength_pos _ _⟩

/-- **Consecutive days have consecutive numbers.** -/
theorem number_next (date : Date) : date.next.number = date.number + 1 := by
  obtain ⟨⟨hfirst, hlast⟩, hday, hlen⟩ := date.isDate
  simp only [Date.next, Date.number]
  split
  · simp only [number]
    omega
  · rename_i hmonthEnd
    split
    · simp only [number, monthStart_succ date.year hfirst]
      omega
    · rename_i hyearEnd
      have htwelve : date.month = 12 := by omega
      have hend := yearEnd date.year
      have hyear := daysThrough_year date.year
      rw [htwelve] at hmonthEnd hlen
      simp only [number, htwelve]
      have hstart : monthStart (date.year + 1) 1 = 0 := by simp [monthStart, commonStart]
      rw [hstart]
      push_cast
      rw [show (date.year : Int) + 1 - 1 = date.year by omega]
      omega

/-- The date so many days after another one. -/
def Date.after (date : Date) (days : Nat) : Date := Date.next^[days] date

theorem Date.after_succ (date : Date) (days : Nat) :
    date.after (days + 1) = (date.after days).next :=
  Function.iterate_succ_apply' Date.next days date

theorem number_after (date : Date) (days : Nat) :
    (date.after days).number = date.number + days := by
  induction days with
  | zero => simp [Date.after]
  | succ days ih =>
    rw [Date.after_succ, number_next, ih]
    push_cast
    omega

/-- The date of a number. -/
theorem Date.after_eq {date : Date} {days year month day : Nat} (h : IsDate year month day)
    (hnumber : Gregorian.number year month day = date.number + days) :
    date.after days = ⟨year, month, day, h⟩ := by
  apply Date.eq_of_number
  rw [number_after, ← hnumber]
  rfl

end FreeVMS.Lib.Gregorian
