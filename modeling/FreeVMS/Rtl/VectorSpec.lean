import FreeVMS.Rtl.VectorTime

/-!
# Round trips of times in seven words

What `sys$numtim` makes of a quadword is a date and a time of day that `lib$cvt_vectim` takes back, and
a vector that `lib$cvt_vectim` accepts is found again by `sys$numtim`, but for the days of 1858 before
day 0.  `sys$__combine_date_time` is a parameter here: any exact conversion.
-/

namespace FreeVMS.Rtl

open Lib.Gregorian Lib.Digits

/-- A `sys$__combine_date_time` that is exact for the absolute times that fit in a quadword, and
    stores something for every number of days. -/
structure Combines (combine : Int → Quad → Int → Option (Nat × Quad)) : Prop where
  pack : ∀ (days : Int) (timadr : Quad) (dayTime : Int), 0 ≤ days → 0 ≤ dayTime →
    dayTime < timeSize → (days * timeSize + dayTime) * timeBase < 2 ^ 63 →
    combine days timadr dayTime =
      some (normal, BitVec.ofInt 64 ((days * timeSize + dayTime) * timeBase))
  status : ∀ (days : Int) (timadr : Quad) (dayTime : Int), dayTime < timeSize →
    ∃ quad, combine days timadr dayTime = some (normal, quad)

/-! ### Time of day -/

/-- The last four words are a time of day. -/
def TimBuf.IsTime (v : TimBuf) : Prop :=
  v.hour.toNat ≤ 23 ∧ v.minute.toNat ≤ 59 ∧ v.second.toNat ≤ 59 ∧ v.hundredth.toNat ≤ 99

instance (v : TimBuf) : Decidable v.IsTime := inferInstanceAs (Decidable (_ ∧ _))

theorem dayTime_lt {v : TimBuf} (h : v.IsTime) : v.dayTime < timeSize := by
  obtain ⟨hhour, hminute, hsecond, hhundredth⟩ := h
  simp only [TimBuf.dayTime, timeSize]
  omega

theorem numtimWords_time (year month day : BitVec 16) {time : Nat} (h : time < timeSize) :
    (numtimWords year month day time).IsTime ∧
      (numtimWords year month day time).dayTime = time := by
  simp only [timeSize] at h
  simp only [TimBuf.IsTime, TimBuf.dayTime, numtimWords, BitVec.toNat_ofNat]
  omega

/-- The words of the time of day of a vector. -/
theorem numtimWords_dayTime {v : TimBuf} (h : v.IsTime) :
    numtimWords v.year v.month v.day v.dayTime = v := by
  obtain ⟨year, month, day, hour, minute, second, hundredth⟩ := v
  obtain ⟨hhour, hminute, hsecond, hhundredth⟩ := h
  simp only at hhour hminute hsecond hhundredth
  simp only [numtimWords, TimBuf.dayTime, TimBuf.mk.injEq, true_and]
  refine ⟨?_, ?_, ?_, ?_⟩ <;> apply BitVec.eq_of_toNat_eq <;> rw [BitVec.toNat_ofNat] <;> omega

/-! ### The days of a date -/

theorem monthEnd_months : ∀ month < 13, 1 ≤ month →
    monthEnd.getD (month - 1) 0 = commonStart month ∧
      monthEnd.getD month 0 = commonStart month + commonLength month := by
  decide

theorem leapDay_eq (year month : Nat) :
    leapDay year month = if 2 ≤ month ∧ Leap year then 1 else 0 := by
  simp only [leapDay, Leap]
  grind

/-- What `lib$cvt_vectim` takes for a date. -/
def CvtDate (year month day : Nat) : Prop := (1858 ≤ year ∧ year ≤ 9999) ∧ IsDate year month day

instance (year month day : Nat) : Decidable (CvtDate year month day) :=
  inferInstanceAs (Decidable (_ ∧ _))

/-- The days of a date, from day 0 on. -/
def daysOf (year month day : Nat) : Int := Lib.Gregorian.number year month day - baseDate.number

/-- The days behind day 0 of January of the year. -/
theorem daysOf_eq {year : Nat} (hyear : 1858 ≤ year) (month day : Nat) :
    daysOf year month day =
      ((year - baseYear : Nat) : Int) * 365 + ((year - baseYear : Nat) : Int) / 4 -
        ((year - baseYear : Nat) : Int) / 100 + ((year - baseYear : Nat) : Int) / 400 - offsetDays - 1 +
        (monthStart year month + day) := by
  have hbase : baseDate.number = 678576 := by decide
  rw [daysOf, hbase, Lib.Gregorian.number, daysThrough, offsetDays, baseYear]
  omega

/-- The days of the year, as `lib$cvt_vectim` adds them up. -/
theorem yearDay_sum (year : Nat) {month : Nat} {days : BitVec 32} (hdays : days.toNat < 2 ^ 16)
    (hcommon : commonStart month ≤ 365) :
    (if month > 2 then days + BitVec.ofNat 32 (commonStart month) +
        BitVec.ofNat 32 (leapDay year month) else days + BitVec.ofNat 32 (commonStart month)).toNat =
      days.toNat + monthStart year month := by
  rw [leapDay_eq, monthStart]
  by_cases hlate : month > 2
  · rw [if_pos hlate, BitVec.toNat_add, BitVec.toNat_add, BitVec.toNat_ofNat, BitVec.toNat_ofNat]
    by_cases hleap : Leap year
    · rw [if_pos ⟨by omega, hleap⟩, if_pos ⟨hlate, hleap⟩]
      omega
    · rw [if_neg (fun h => hleap h.2), if_neg (fun h => hleap h.2)]
      omega
  · rw [if_neg hlate, if_neg (fun h => hlate h.1), BitVec.toNat_add, BitVec.toNat_ofNat]
    omega

/-- The last day of the month, as `lib$cvt_vectim` compares with it. -/
theorem yearDay_le (year : Nat) {month : Nat} (h : 1 ≤ month) (day : Nat) :
    day + monthStart year month ≤
        commonStart month + commonLength month + leapDay year month ↔
      day ≤ monthLength year month := by
  rw [leapDay_eq, monthStart, monthLength]
  by_cases hleap : Leap year
  · simp only [hleap, and_true]
    by_cases htwo : month = 2
    · subst htwo
      simp only [show commonStart 2 = 31 from rfl, show commonLength 2 = 28 from rfl, le_refl,
        lt_irrefl, if_true, if_false]
      omega
    · split <;> split <;> omega
  · simp only [hleap, and_false, if_false]
    omega

theorem packDate_eq {year month : Nat} {days : BitVec 32} (hdays : days.toNat < 2 ^ 16) :
    packDate year month days =
      if CvtDate year month days.toNat then
        some (BitVec.ofInt 32 (daysOf year month days.toNat))
      else none := by
  by_cases hrange : year ≥ 1858 ∧ year ≤ 9999 ∧ month ≥ 1 ∧ month ≤ 12 ∧ 1 ≤ days.toNat
  · have hguard := hrange
    obtain ⟨hyear, hyearLast, hmonth, hmonthLast, hday⟩ := hrange
    obtain ⟨hstart, hend⟩ := monthEnd_months month (by omega) hmonth
    have hcommon : commonStart month ≤ 365 := by
      interval_cases month <;> decide
    have hsum := yearDay_sum year hdays hcommon
    have hle := yearDay_le year hmonth days.toNat
    simp only [packDate, if_pos hguard, hstart, hend, hsum, hle]
    by_cases hlen : days.toNat ≤ monthLength year month
    · have hdate : CvtDate year month days.toNat :=
        ⟨⟨hyear, hyearLast⟩, ⟨hmonth, hmonthLast⟩, hday, hlen⟩
      rw [if_pos hlen, if_pos hdate, daysOf_eq hyear, Option.some.injEq]
      apply BitVec.eq_of_toNat_eq
      rw [BitVec.toNat_add, hsum, BitVec.toNat_ofInt, BitVec.toNat_ofInt]
      omega
    · rw [if_neg hlen, if_neg (fun h => hlen h.2.2.2)]
  · rw [packDate, if_neg hrange, if_neg]
    intro h
    exact hrange ⟨h.1.1, h.1.2, h.2.1.1, h.2.1.2, h.2.2.1⟩

/-- The dates that `lib$cvt_vectim` takes, by number. -/
theorem daysOf_bounds {year month day : Nat} (h : CvtDate year month day) :
    -1000 < daysOf year month day ∧ daysOf year month day < 2973484 := by
  obtain ⟨⟨hfirst, hlast⟩, hdate⟩ := h
  have hbase : baseDate.number = 678576 := by decide
  have hday := day_of_year hdate
  have hlow := daysThrough_mono (show (1857 : Int) ≤ (year : Int) - 1 by omega)
  have hhigh := daysThrough_mono (show (year : Int) ≤ 9999 by omega)
  have hyear := daysThrough_year year
  have h1857 : daysThrough 1857 = 678255 := by decide
  have h9999 : daysThrough 9999 = 3652059 := by decide
  simp only [daysOf, Lib.Gregorian.number]
  omega

theorem packDays_eq (v : TimBuf) :
    packDays v =
      if v.IsTime then
        if v.delta then some (v.day.setWidth 32)
        else if CvtDate v.year.toNat v.month.toNat v.day.toNat then
          some (BitVec.ofInt 32 (daysOf v.year.toNat v.month.toNat v.day.toNat))
        else none
      else none := by
  have hwidth : (v.day.setWidth 32).toNat = v.day.toNat := by
    have hday := v.day.isLt
    rw [BitVec.toNat_setWidth]
    omega
  have hday : (v.day.setWidth 32).toNat < 2 ^ 16 := by
    rw [hwidth]
    exact v.day.isLt
  have htime : (v.hour.toNat > 23 ∨ v.minute.toNat > 59 ∨ v.second.toNat > 59 ∨
      v.hundredth.toNat > 99) ↔ ¬ v.IsTime := by
    simp only [TimBuf.IsTime]
    omega
  simp only [packDays, packDate_eq hday, hwidth, htime, ite_not]

/-! ### Absolute and delta times -/

/-- The quadword of an absolute time. -/
def absoluteTime (days dayTime : Int) : Quad :=
  BitVec.ofInt 64 ((days * timeSize + dayTime) * timeBase)

/-- The quadword of a delta time. -/
def deltaTime (days dayTime : Int) : Quad :=
  BitVec.ofInt 64 (-((days * timeSize + dayTime) * timeBase))

theorem time_range {days dayTime : Int} (hdays : days < 10000000) (htime : dayTime < timeSize) :
    (days * timeSize + dayTime) * timeBase < 2 ^ 63 := by
  simp only [timeSize, timeBase] at *
  omega

theorem complementTime_eq (days dayTime : Int) :
    complementTime (absoluteTime days dayTime) = deltaTime days dayTime := by
  apply BitVec.eq_of_toNat_eq
  have hvalue := ofTimeBytes_value (complementBytes (timeBytes (absoluteTime days dayTime)))
  rw [complementBytes_value, timeBytes_value,
    show (timeBytes (absoluteTime days dayTime)).length = 8 from rfl] at hvalue
  rw [absoluteTime, BitVec.toNat_ofInt] at hvalue
  rw [complementTime, deltaTime, BitVec.toNat_ofInt, absoluteTime]
  omega

section Numtim

variable (gettim : Nat × Quad)

theorem sysNumtim_absolute (days : Int) {dayTime : Int} (h0 : 0 ≤ days) (hdays : days < 10000000)
    (htime : 0 ≤ dayTime) (hlt : dayTime < timeSize) :
    sysNumtim gettim (some (absoluteTime days dayTime)) =
      (normal, some (numtimFields days dayTime)) := by
  rw [sysNumtim, absoluteTime, libDay_packed gettim h0 htime hlt (time_range hdays hlt)]
  rfl

theorem sysNumtim_delta (days : Int) {dayTime : Int} (h0 : 0 ≤ days) (hdays : days < 10000000)
    (htime : 0 ≤ dayTime) (hlt : dayTime < timeSize) :
    sysNumtim gettim (some (deltaTime days dayTime)) =
      (normal, some (numtimFields (-days) (-dayTime))) := by
  rw [sysNumtim, deltaTime, libDay_packed_neg gettim h0 htime hlt (time_range hdays hlt)]
  rfl

end Numtim

theorem numtimDate_after (days : Nat) :
    numtimDate days = ((baseDate.after days).year, (baseDate.after days).month,
      (baseDate.after days).day) := by
  obtain ⟨hdate, hnumber⟩ := numtimDate_date days
  generalize numtimDate days = found at hdate hnumber ⊢
  obtain ⟨year, month, day⟩ := found
  rw [Date.after_eq hdate hnumber]

/-- The first three words are a date. -/
def HasDate (v : TimBuf) (date : Date) : Prop :=
  v.year.toNat = date.year ∧ v.month.toNat = date.month ∧ v.day.toNat = date.day

theorem numtimFields_absolute (days : Nat) {dayTime : Nat} (hyear : (baseDate.after days).year < 2 ^ 16)
    (htime : dayTime < timeSize) :
    HasDate (numtimFields days dayTime) (baseDate.after days) ∧
      (numtimFields days dayTime).IsTime ∧ (numtimFields days dayTime).dayTime = dayTime := by
  obtain ⟨⟨_, hmonth⟩, _, hlen⟩ := (baseDate.after days).isDate
  have hday := monthLength_le (baseDate.after days).year (baseDate.after days).month
  have hnotDelta : ¬ ((days : Int) < 0 ∨ (dayTime : Int) < 0) := by omega
  rw [numtimFields, if_neg hnotDelta, Int.toNat_natCast, numtimDate_after]
  obtain ⟨hIsTime, htimes⟩ := numtimWords_time (BitVec.ofNat 16 (baseDate.after days).year)
    (BitVec.ofNat 16 (baseDate.after days).month) (BitVec.ofNat 16 (baseDate.after days).day) htime
  refine ⟨?_, hIsTime, htimes⟩
  simp only [HasDate, numtimWords, BitVec.toNat_ofNat]
  omega

/-- No day from day 0 on is before 1858. -/
theorem year_after (days : Nat) : 1858 ≤ (baseDate.after days).year := by
  by_contra hlt
  have hnumber := number_after baseDate days
  have hbefore : (baseDate.after days).number < baseDate.number :=
    number_lt_of_year (baseDate.after days).isDate baseDate.isDate (not_le.mp hlt)
  omega

theorem days_after_lt {days : Nat} (hyear : (baseDate.after days).year ≤ 9999) :
    days < 2973484 := by
  have hbounds := daysOf_bounds ⟨⟨year_after days, hyear⟩, (baseDate.after days).isDate⟩
  have hnumber := number_after baseDate days
  simp only [daysOf] at hbounds
  simp only [Date.number] at hnumber hbounds
  omega

theorem year_next (date : Date) : date.next.year ≤ date.year + 1 := by
  unfold Date.next
  split
  · exact Nat.le_succ _
  · split
    · exact Nat.le_succ _
    · exact le_refl _

/-! ### From the quadword to the words and back -/

section RoundTrip

variable {combine : Int → Quad → Int → Option (Nat × Quad)}

/-- `lib$cvt_vectim` on a date from day 0 on. -/
theorem libCvtVectim_date (hcombine : Combines combine) {v : TimBuf} (days : Nat)
    (htime : v.IsTime) (hdate : CvtDate v.year.toNat v.month.toNat v.day.toNat)
    (hdays : daysOf v.year.toNat v.month.toNat v.day.toNat = days) (timadr : Quad) :
    libCvtVectim combine v timadr = some (normal, absoluteTime days v.dayTime) := by
  have hbounds := daysOf_bounds hdate
  rw [hdays] at hbounds
  have hlt := dayTime_lt htime
  have hnotDelta : v.delta = false := by
    have hyear : v.year ≠ 0 := by
      intro h0
      have hfirst := hdate.1.1
      rw [h0] at hfirst
      exact absurd hfirst (by decide)
    rw [TimBuf.delta, decide_eq_false_iff_not]
    exact fun h => hyear h.1
  have hint : (BitVec.ofInt 32 (days : Int)).toInt = days := by
    rw [BitVec.toInt_ofInt_eq_self (by decide)] <;> omega
  have hrange : ((days : Int) * timeSize + v.dayTime) * timeBase < 2 ^ 63 :=
    time_range (by omega) (by omega)
  have hpack := hcombine.pack days timadr v.dayTime (by omega) (by omega) (by omega) hrange
  simp only [libCvtVectim, packDays_eq, if_pos htime, hnotDelta, Bool.false_eq_true, if_false,
    if_pos hdate, hdays, hint, hpack]
  rfl

/-- `lib$cvt_vectim` on a delta time. -/
theorem libCvtVectim_delta (hcombine : Combines combine) {v : TimBuf} (htime : v.IsTime)
    (hdelta : v.delta = true) (timadr : Quad) :
    libCvtVectim combine v timadr = some (normal, deltaTime v.day.toNat v.dayTime) := by
  have hday := v.day.isLt
  have hlt := dayTime_lt htime
  have hint : (v.day.setWidth 32).toInt = v.day.toNat := by
    have hwidth : (v.day.setWidth 32).toNat = v.day.toNat := by
      rw [BitVec.toNat_setWidth]
      omega
    rw [BitVec.toInt_eq_toNat_of_lt (by omega), hwidth]
  have hrange : ((v.day.toNat : Int) * timeSize + v.dayTime) * timeBase < 2 ^ 63 :=
    time_range (by omega) (by omega)
  have hpack := hcombine.pack v.day.toNat timadr v.dayTime (by omega) (by omega) (by omega) hrange
  simp only [libCvtVectim, packDays_eq, if_pos htime, hdelta, if_true, hint, hpack]
  rw [← complementTime_eq]
  rfl

/-- `lib$cvt_vectim` takes back the words of an absolute time. -/
theorem libCvtVectim_absolute (hcombine : Combines combine) {days dayTime : Nat}
    (hyear : (baseDate.after days).year ≤ 9999) (htime : dayTime < timeSize) (timadr : Quad) :
    libCvtVectim combine (numtimFields days dayTime) timadr =
      some (normal, absoluteTime days dayTime) := by
  obtain ⟨⟨hy, hm, hd⟩, hIsTime, hdayTime⟩ := numtimFields_absolute days (by omega) htime
  have hnumber := number_after baseDate days
  have hdate : CvtDate (numtimFields days dayTime).year.toNat
      (numtimFields days dayTime).month.toNat (numtimFields days dayTime).day.toNat := by
    rw [hy, hm, hd]
    exact ⟨⟨year_after days, hyear⟩, (baseDate.after days).isDate⟩
  have hdays : daysOf (numtimFields days dayTime).year.toNat
      (numtimFields days dayTime).month.toNat (numtimFields days dayTime).day.toNat = days := by
    rw [hy, hm, hd, daysOf]
    simp only [Date.number] at hnumber ⊢
    omega
  have hback := libCvtVectim_date hcombine days hIsTime hdate hdays timadr
  rwa [hdayTime] at hback

/-- **Calendar round trip.**  For every absolute time of a day until the end of the year 9999,
    `sys$numtim` gives the date of that day and a vector from which `lib$cvt_vectim` gives the time
    back; and at any time of the day after it gives the next date. -/
theorem calendar_round_trip (hcombine : Combines combine) (gettim : Nat × Quad)
    (days dayTime : Nat) (hyear : (baseDate.after days).year ≤ 9999) (htime : dayTime < timeSize) :
    ∃ v, sysNumtim gettim (some (absoluteTime days dayTime)) = (normal, some v) ∧
      HasDate v (baseDate.after days) ∧
      (∀ timadr, libCvtVectim combine v timadr = some (normal, absoluteTime days dayTime)) ∧
      ∀ dayTime' : Nat, dayTime' < timeSize →
        ∃ v', sysNumtim gettim (some (absoluteTime (days + 1) dayTime')) = (normal, some v') ∧
          HasDate v' (baseDate.after days).next := by
  have hdays := days_after_lt hyear
  obtain ⟨hdate, _, _⟩ := numtimFields_absolute days (by omega) htime
  refine ⟨_, sysNumtim_absolute gettim _ (by omega) (by omega) (by omega) (by omega), hdate,
    libCvtVectim_absolute hcombine hyear htime, ?_⟩
  intro dayTime' htime'
  have hnext := year_next (baseDate.after days)
  rw [← Date.after_succ] at hnext ⊢
  obtain ⟨hdate', _, _⟩ := numtimFields_absolute (days + 1) (by omega) htime'
  have hnumtim := sysNumtim_absolute gettim ((days + 1 : Nat) : Int) (by omega)
    (by omega) (show (0 : Int) ≤ dayTime' by omega) (by omega)
  rw [Nat.cast_succ] at hnumtim hdate'
  exact ⟨_, hnumtim, hdate'⟩

/-! ### From the words to the quadword and back -/

/-- The days of 1858 before day 0, at a time of day. -/
def BeforeBase (v : TimBuf) : Prop :=
  v.IsTime ∧ v.year.toNat = 1858 ∧ IsDate 1858 v.month.toNat v.day.toNat ∧
    (v.month.toNat < 11 ∨ (v.month.toNat = 11 ∧ v.day.toNat < 17))

instance (v : TimBuf) : Decidable (BeforeBase v) := inferInstanceAs (Decidable (_ ∧ _))

/-- A date that is accepted has a negative number of days when it is before day 0. -/
theorem daysOf_neg_iff {year month day : Nat} (h : CvtDate year month day) :
    daysOf year month day < 0 ↔ year = 1858 ∧ (month < 11 ∨ (month = 11 ∧ day < 17)) := by
  obtain ⟨⟨hfirst, _⟩, hdate⟩ := h
  have hbase : baseDate.number = Lib.Gregorian.number 1858 11 17 := rfl
  have hbaseDate : IsDate 1858 11 17 := by decide
  rw [daysOf, hbase]
  rcases Nat.lt_or_eq_of_le hfirst with hlater | hyear
  · have hlt := number_lt_of_year hbaseDate hdate hlater
    omega
  · subst hyear
    rcases lt_trichotomy month 11 with hearlier | heq | hlater
    · have hlt := number_lt_of_month hdate hbaseDate hearlier
      omega
    · subst heq
      have hdiff : Lib.Gregorian.number 1858 11 day - Lib.Gregorian.number 1858 11 17 = (day : Int) - 17 := by
        simp only [Lib.Gregorian.number]
        omega
      omega
    · have hlt := number_lt_of_month hbaseDate hdate hlater
      omega

/-- A vector that is accepted is found again, and else nothing is written. -/
def Faithful (combine : Int → Quad → Int → Option (Nat × Quad)) (v : TimBuf) : Prop :=
  ∀ timadr, ∃ sts quad, libCvtVectim combine v timadr = some (sts, quad) ∧
    (sts &&& 1 = 1 → ∀ gettim, sysNumtim gettim (some quad) = (normal, some v)) ∧
    (sts &&& 1 = 0 → sts = ivTime ∧ quad = timadr)

theorem faithful_normal {v : TimBuf} {quad : Quad}
    (hcvt : ∀ timadr, libCvtVectim combine v timadr = some (normal, quad))
    (hnumtim : ∀ gettim, sysNumtim gettim (some quad) = (normal, some v)) : Faithful combine v :=
  fun timadr => ⟨normal, quad, hcvt timadr, fun _ => hnumtim, fun h => absurd h (by decide)⟩

theorem faithful_refused {v : TimBuf} (h : packDays v = none) : Faithful combine v := by
  intro timadr
  refine ⟨ivTime, timadr, ?_, fun h => absurd h (by decide), fun _ => ⟨rfl, rfl⟩⟩
  simp only [libCvtVectim, h]

/-- The words of a date from day 0 on. -/
theorem numtimFields_date {v : TimBuf} {days : Nat} (htime : v.IsTime)
    (hdate : IsDate v.year.toNat v.month.toNat v.day.toNat)
    (hdays : daysOf v.year.toNat v.month.toNat v.day.toNat = days) :
    numtimFields days v.dayTime = v := by
  have hnotDelta : ¬ ((days : Int) < 0 ∨ (v.dayTime : Int) < 0) := by omega
  rw [numtimFields, if_neg hnotDelta, Int.toNat_natCast, Int.toNat_natCast]
  obtain ⟨hfound, hnumber⟩ := numtimDate_date days
  generalize numtimDate days = found at hfound hnumber ⊢
  obtain ⟨year, month, day⟩ := found
  have heq : Lib.Gregorian.number year month day = Lib.Gregorian.number v.year.toNat v.month.toNat v.day.toNat := by
    rw [hnumber, ← hdays, daysOf]
    omega
  obtain ⟨rfl, rfl, rfl⟩ := number_injective hfound hdate heq
  simp only [BitVec.ofNat_toNat, BitVec.setWidth_eq]
  exact numtimWords_dayTime htime

/-- The words of a delta time. -/
theorem numtimFields_delta {v : TimBuf} (htime : v.IsTime) (hdelta : v.delta = true)
    (hv : v ≠ ⟨0, 0, 0, 0, 0, 0, 0⟩) :
    numtimFields (-v.day.toNat) (-v.dayTime) = v := by
  obtain ⟨hyear, hmonth⟩ : v.year = 0 ∧ v.month = 0 := by simpa [TimBuf.delta] using hdelta
  have hwords := numtimWords_dayTime htime
  rw [hyear, hmonth] at hwords
  have hnonzero : ¬ (v.day = 0 ∧ v.dayTime = 0) := by
    intro hzero
    rw [hzero.1, hzero.2] at hwords
    exact hv hwords.symm
  have hday : v.day.toNat = 0 → v.day = 0 := fun h => BitVec.eq_of_toNat_eq h
  have hneg : -(v.day.toNat : Int) < 0 ∨ -(v.dayTime : Int) < 0 := by
    by_contra hpos
    exact hnonzero ⟨hday (by omega), by omega⟩
  rw [numtimFields, if_pos hneg, neg_neg, neg_neg, Int.toNat_natCast, BitVec.ofInt_natCast,
    BitVec.ofNat_toNat, BitVec.setWidth_eq]
  exact hwords

/-- No quadword has the words of a day of 1858 before day 0. -/
theorem sysNumtim_not_before {gettim : Nat × Quad} {quad : Quad} {v : TimBuf}
    (h : sysNumtim gettim (some quad) = (normal, some v)) : ¬ BeforeBase v := by
  intro hbefore
  obtain ⟨_, hyear, hdate, hday⟩ := hbefore
  have hdate' : CvtDate v.year.toNat v.month.toNat v.day.toNat := by
    rw [hyear]
    exact ⟨by decide, hdate⟩
  have hneg := (daysOf_neg_iff hdate').mpr ⟨hyear, hday⟩
  rw [sysNumtim, libDay_some] at h
  have hlow := BitVec.le_toInt quad
  have hhigh := BitVec.toInt_lt (x := quad)
  have hdays : (quad.toInt.tdiv timeBase).tdiv timeSize < 10675200 := by
    obtain ⟨hd, _⟩ := crack_abs quad.toInt
    have habs : |quad.toInt| ≤ 2 ^ 63 := by
      rw [abs_le]
      omega
    have hle := le_abs_self ((quad.toInt.tdiv timeBase).tdiv timeSize)
    rw [hd] at hle
    simp only [timeBase, timeSize] at *
    omega
  have hfields := (Option.some.inj (Prod.mk.inj h).2)
  generalize (quad.toInt.tdiv timeBase).tdiv timeSize = days at hfields hdays
  generalize (quad.toInt.tdiv timeBase).tmod timeSize = dayTime at hfields
  rw [numtimFields] at hfields
  split at hfields
  · rw [← hfields] at hyear
    simp [numtimWords] at hyear
  · obtain ⟨hfound, hnumber⟩ := numtimDate_date days.toNat
    generalize numtimDate days.toNat = found at hfields hfound hnumber
    obtain ⟨year, month, day⟩ := found
    have hlen := monthLength_le year month
    have hbase : baseDate.number = 678576 := by decide
    have hyearLt : year < 2 ^ 16 := by
      by_contra hge
      have hmono := daysThrough_mono (show (65535 : Int) ≤ (year : Int) - 1 by omega)
      have hend : daysThrough 65535 = 23936166 := by decide
      simp only [Lib.Gregorian.number] at hnumber
      omega
    obtain ⟨hmonths, hdays'⟩ := hfound
    dsimp only at hmonths hdays' hfields hnumber
    rw [← hfields] at hneg
    simp only [numtimWords, BitVec.toNat_ofNat] at hneg
    rw [Nat.mod_eq_of_lt (by omega), Nat.mod_eq_of_lt (by omega), Nat.mod_eq_of_lt (by omega),
      daysOf, hnumber] at hneg
    omega

theorem not_faithful_before (hcombine : Combines combine) {v : TimBuf} (hbefore : BeforeBase v) :
    ¬ Faithful combine v := by
  have hv := hbefore
  obtain ⟨htime, hyear, hdate, _⟩ := hv
  intro h
  obtain ⟨sts, quad, hcvt, hnumtim, _⟩ := h 0
  have hlt := dayTime_lt htime
  have hnotDelta : v.delta = false := by
    rw [TimBuf.delta, decide_eq_false_iff_not]
    intro h0
    rw [h0.1] at hyear
    exact absurd hyear (by decide)
  have hcvtDate : CvtDate v.year.toNat v.month.toNat v.day.toNat := by
    rw [hyear]
    exact ⟨by decide, hdate⟩
  have hpacked := packDays_eq v
  rw [if_pos htime, hnotDelta, if_neg Bool.false_ne_true, if_pos hcvtDate] at hpacked
  obtain ⟨quad', hcombined⟩ := hcombine.status
    (BitVec.ofInt 32 (daysOf v.year.toNat v.month.toNat v.day.toNat)).toInt 0 v.dayTime (by omega)
  simp only [libCvtVectim, hpacked, hcombined, Option.map_some, Option.some.injEq,
    Prod.mk.injEq] at hcvt
  exact sysNumtim_not_before (hnumtim (by rw [← hcvt.1]; rfl) (0, 0)) hbefore

/-- **Accepted vectors are faithful.**  A vector other than the delta time of zero is accepted and
    found again, or refused with nothing written, unless it is a day of 1858 before day 0: those
    are accepted, and no quadword has their words. -/
theorem accepted_vectors (hcombine : Combines combine) (v : TimBuf)
    (hv : v ≠ ⟨0, 0, 0, 0, 0, 0, 0⟩) : Faithful combine v ↔ ¬ BeforeBase v := by
  constructor
  · exact fun h hbefore => not_faithful_before hcombine hbefore h
  · intro hafter
    by_cases htime : v.IsTime
    · have hlt := dayTime_lt htime
      have hpacked := packDays_eq v
      rw [if_pos htime] at hpacked
      by_cases hdelta : v.delta = true
      · have hday := v.day.isLt
        refine faithful_normal (libCvtVectim_delta hcombine htime hdelta) fun gettim => ?_
        rw [sysNumtim_delta gettim _ (by omega) (by omega) (by omega) (by omega),
          numtimFields_delta htime hdelta hv]
      · rw [if_neg hdelta] at hpacked
        by_cases hdate : CvtDate v.year.toNat v.month.toNat v.day.toNat
        · have hnonneg : 0 ≤ daysOf v.year.toNat v.month.toNat v.day.toNat := by
            by_contra hneg
            obtain ⟨hyear, hday⟩ := (daysOf_neg_iff hdate).mp (by omega)
            exact hafter ⟨htime, hyear, hyear ▸ hdate.2, hday⟩
          obtain ⟨days, hdays⟩ := Int.eq_ofNat_of_zero_le hnonneg
          have hbounds := daysOf_bounds hdate
          refine faithful_normal (libCvtVectim_date hcombine days htime hdate hdays) fun gettim => ?_
          rw [sysNumtim_absolute gettim _ (by omega) (by omega) (by omega) (by omega),
            numtimFields_date htime hdate.2 hdays]
        · rw [if_neg hdate] at hpacked
          exact faithful_refused hpacked
    · refine faithful_refused ?_
      rw [packDays_eq, if_neg htime]

end RoundTrip

/-- An exact conversion. -/
def exactCombine (days : Int) (timadr : Quad) (dayTime : Int) : Option (Nat × Quad) :=
  if timeSize ≤ dayTime then some (ivTime, timadr) else some (normal, absoluteTime days dayTime)

theorem exactCombine_combines : Combines exactCombine where
  pack days timadr dayTime _ _ hlt _ := by
    rw [exactCombine, if_neg (by omega)]
    rfl
  status days timadr dayTime hlt := by
    rw [exactCombine, if_neg (by omega)]
    exact ⟨_, rfl⟩

/-- Noon of the 9th of June 2020. -/
theorem calendar_round_trip_noon :
    ∃ v, sysNumtim (normal, 0) (some (absoluteTime 59009 4320000)) = (normal, some v) ∧
      ∀ timadr, libCvtVectim exactCombine v timadr =
        some (normal, absoluteTime 59009 4320000) := by
  have hdate : baseDate.after 59009 = ⟨2020, 6, 9, by decide⟩ :=
    Date.after_eq (by decide) (by decide)
  obtain ⟨v, hnumtim, _, hback, _⟩ := calendar_round_trip exactCombine_combines (normal, 0) 59009
    4320000 (by rw [hdate]; decide) (by decide)
  exact ⟨v, hnumtim, hback⟩

theorem accepted_vectors_noon : Faithful exactCombine ⟨2020, 6, 9, 12, 0, 0, 0⟩ :=
  (accepted_vectors exactCombine_combines ⟨2020, 6, 9, 12, 0, 0, 0⟩ (by decide)).mpr (by decide)

/-- The first of January 1858 is accepted, and read as a delta time. -/
theorem january_1858_not_faithful :
    ¬ ∀ combine, Combines combine → ∀ v : TimBuf, v ≠ ⟨0, 0, 0, 0, 0, 0, 0⟩ →
      Faithful combine v :=
  fun h => not_faithful_before exactCombine_combines (by decide)
    (h exactCombine exactCombine_combines ⟨1858, 1, 1, 0, 0, 0, 0⟩ (by decide))

end FreeVMS.Rtl
