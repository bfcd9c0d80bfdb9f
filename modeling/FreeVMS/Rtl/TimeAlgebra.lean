import FreeVMS.Rtl.Multiword

/-!
# Adding and subtracting times

`lib_add_times.c` and `lib_sub_times.c`: an absolute time is a quadword that is not negative, a
delta time is stored negated.  So the magnitudes of two times of different sign are added by
`lib$subx` and subtracted by `lib$addx`, and the result is a delta time or an absolute one by what
the operands are.
-/

namespace FreeVMS.Rtl

/-- `LIB$_ONEDELTIM` -/
def oneDelTim : Nat := 0x001583E4

/-- `time->time[7] & 0x80` -/
def deltaBit (m : Memory) (time : Nat) : Byte := m (time + 7) &&& 0x80

/-- `lib$add_times`: the status and the memory. -/
def libAddTimes (m : Memory) (time1 time2 result : Nat) : Nat × Memory :=
  if deltaBit m time1 ≠ 0 then
    if deltaBit m time2 ≠ 0 then libAddx m time1 time2 result none
    else libSubx m time2 time1 result none
  else if deltaBit m time2 ≠ 0 then libSubx m time1 time2 result none
  else (oneDelTim, m)

/-- The loop of `lib$sub_times`, from byte `count` down: the difference of the first bytes that
    differ. -/
def compareTimes (m : Memory) (time1 time2 : Nat) : Nat → Int
  | 0 => byteValue (m time1) - byteValue (m time2)
  | count + 1 =>
      let cmp := byteValue (m (time1 + (count + 1))) - byteValue (m (time2 + (count + 1)))
      if cmp ≠ 0 then cmp else compareTimes m time1 time2 count

/-- `lib$sub_times` -/
def libSubTimes (m : Memory) (time1 time2 result : Nat) : Nat × Memory :=
  if deltaBit m time1 ≠ deltaBit m time2 then libAddx m time1 time2 result none
  else if compareTimes m time1 time2 7 < 0 then libSubx m time1 time2 result none
  else libSubx m time2 time1 result none

/-! ### Signs, comparison and results -/

theorem byte_sign (b : Byte) : (b &&& 0x80 = 0 ∧ b >>> 7 = 0) ∨ (b &&& 0x80 = 0x80 ∧ b >>> 7 = 1) := by
  revert b
  decide +kernel

/-- A quadword as a time: a delta time is negative. -/
def timeAt (m : Memory) (p : Nat) : Int := signedAt m p 8

theorem deltaBit_cases (m : Memory) (p : Nat) :
    (deltaBit m p = 0 ∧ 0 ≤ timeAt m p) ∨ (deltaBit m p = 0x80 ∧ timeAt m p < 0) := by
  obtain ⟨hone, hzero⟩ := sign_bit m p (n := 8) (by decide)
  cases byte_sign (m (p + 7)) with
  | inl h => exact Or.inl ⟨h.1, hzero.mp h.2⟩
  | inr h => exact Or.inr ⟨h.1, hone.mp h.2⟩

theorem deltaBit_absolute {m : Memory} {p : Nat} (h : 0 ≤ timeAt m p) : deltaBit m p = 0 := by
  cases deltaBit_cases m p with
  | inl hp => exact hp.1
  | inr hp => omega

theorem deltaBit_delta {m : Memory} {p : Nat} (h : timeAt m p < 0) : deltaBit m p = 0x80 := by
  cases deltaBit_cases m p with
  | inl hp => omega
  | inr hp => exact hp.1

/-- The loop compares the two as unsigned numbers. -/
theorem compareTimes_neg (m : Memory) (p q n : Nat) :
    compareTimes m p q n < 0 ↔ numberAt m p (n + 1) < numberAt m q (n + 1) := by
  induction n with
  | zero =>
    rw [compareTimes, numberAt_snoc, numberAt_snoc, sub_neg]
    simp [numberAt, bytesValue]
  | succ n ih =>
    have hp0 := numberAt_nonneg m p (n + 1)
    have hp := numberAt_lt m p (n + 1)
    have hq0 := numberAt_nonneg m q (n + 1)
    have hq := numberAt_lt m q (n + 1)
    have hpow : (0 : Int) < 256 ^ (n + 1) := by positivity
    simp only [compareTimes]
    rw [numberAt_snoc m p, numberAt_snoc m q]
    generalize byteValue (m (p + (n + 1))) = x
    generalize byteValue (m (q + (n + 1))) = y
    split
    · rename_i hne
      constructor
      · intro hlt
        have hstep : (256 : Int) ^ (n + 1) * (x + 1) ≤ 256 ^ (n + 1) * y :=
          mul_le_mul_of_nonneg_left (by omega) hpow.le
        linarith
      · intro hlt
        by_contra hge
        have hstep : (256 : Int) ^ (n + 1) * (y + 1) ≤ 256 ^ (n + 1) * x :=
          mul_le_mul_of_nonneg_left (by omega) hpow.le
        linarith
    · rename_i heq
      rw [ih, show x = y by omega]
      omega

/-- The call stored the time `v` at `r` and returned `SS$_NORMAL`. -/
def Gives (call : Nat × Memory) (r : Nat) (v : Int) : Prop :=
  call.1 = normal ∧ timeAt call.2 r = v

theorem timeAt_of_number {m : Memory} {r : Nat} {v : Int}
    (h : numberAt m r 8 = v % 256 ^ 8) (hv : -2 ^ 63 ≤ v ∧ v < 2 ^ 63) : timeAt m r = v := by
  rw [timeAt, signedAt, h]
  omega

/-- The unsigned quadword of a time. -/
theorem numberAt_time (m : Memory) (p : Nat) :
    numberAt m p 8 = timeAt m p % 256 ^ 8 ∧ -2 ^ 63 ≤ timeAt m p ∧ timeAt m p < 2 ^ 63 := by
  have h0 := numberAt_nonneg m p 8
  have h1 := numberAt_lt m p 8
  rw [timeAt, signedAt]
  split <;> omega

theorem libSubx_gives {m : Memory} {p q r : Nat} (hp : Clear r p 8) (hq : Clear r q 8)
    (hv : -2 ^ 63 ≤ timeAt m p - timeAt m q ∧ timeAt m p - timeAt m q < 2 ^ 63) :
    Gives (libSubx m p q r none) r (timeAt m p - timeAt m q) := by
  have hdiff : numberAt (libSubx m p q r none).2 r 8 =
      (numberAt m p 8 - numberAt m q 8) % 256 ^ 8 := sweep_sub hp hq
  refine ⟨rfl, timeAt_of_number ?_ hv⟩
  rw [hdiff, (numberAt_time m p).1, (numberAt_time m q).1, ← Int.sub_emod]

/-- For two times that are not a negative one before one that is not, with a negative sum. -/
theorem libAddx_gives {m : Memory} {p q r : Nat} (hp : Clear r p 8) (hq : Clear r q 8)
    (hmixed : ¬ MixedNegative m p q 8)
    (hv : -2 ^ 63 ≤ timeAt m p + timeAt m q ∧ timeAt m p + timeAt m q < 2 ^ 63) :
    Gives (libAddx m p q r none) r (timeAt m p + timeAt m q) := by
  have hsum : numberAt (libAddx m p q r none).2 r 8 =
      (numberAt m p 8 + numberAt m q 8) % 256 ^ 8 := sweep_add hp hq
  have hcount : 8 = byteCount none := rfl
  constructor
  · rw [libAddx_status hcount (by decide) hp hq, if_neg]
    simp only [timeAt] at hv
    rw [not_or, not_or]
    exact ⟨by omega, by omega, hmixed⟩
  · refine timeAt_of_number ?_ hv
    rw [hsum, (numberAt_time m p).1, (numberAt_time m q).1, ← Int.add_emod]

/-! ### The algebra of times -/

section Algebra

variable {m : Memory} {p q r : Nat}

/-- An absolute and a delta time, in either order. -/
theorem libAddTimes_mixed (hp : Clear r p 8) (hq : Clear r q 8) (ht : 0 ≤ timeAt m p)
    (hd : timeAt m q < 0) (hrange : timeAt m p + |timeAt m q| < 2 ^ 63) :
    Gives (libAddTimes m p q r) r (timeAt m p + |timeAt m q|) ∧
      Gives (libAddTimes m q p r) r (timeAt m p + |timeAt m q|) := by
  rw [abs_of_neg hd] at hrange ⊢
  have hsub := libSubx_gives (m := m) hp hq (by omega)
  rw [libAddTimes, libAddTimes, deltaBit_absolute ht, deltaBit_delta hd]
  exact ⟨by simpa [Int.sub_eq_add_neg] using hsub, by simpa [Int.sub_eq_add_neg] using hsub⟩

theorem libAddTimes_deltas (hp : Clear r p 8) (hq : Clear r q 8) (hd : timeAt m p < 0)
    (he : timeAt m q < 0) (hrange : |timeAt m p| + |timeAt m q| ≤ 2 ^ 63) :
    Gives (libAddTimes m p q r) r (timeAt m p + timeAt m q) := by
  rw [abs_of_neg hd, abs_of_neg he] at hrange
  have hmixed : ¬ MixedNegative m p q 8 := fun h => absurd he (not_lt.mpr h.2.1)
  have hadd := libAddx_gives hp hq hmixed (by omega)
  rw [libAddTimes, deltaBit_delta hd, deltaBit_delta he]
  simpa using hadd

/-- Two absolute times are not added. -/
theorem libAddTimes_absolute (hp : 0 ≤ timeAt m p) (hq : 0 ≤ timeAt m q) :
    libAddTimes m p q r = (oneDelTim, m) := by
  rw [libAddTimes, deltaBit_absolute hp, deltaBit_absolute hq]
  rfl

/-- An absolute time less a delta time. -/
theorem libSubTimes_mixed (hp : Clear r p 8) (hq : Clear r q 8) (hx : 0 ≤ timeAt m p)
    (hd : timeAt m q < 0) :
    Gives (libSubTimes m p q r) r (timeAt m p + timeAt m q) := by
  have hmixed : ¬ MixedNegative m p q 8 := fun h => absurd hx (not_le.mpr h.1)
  have hpr := (numberAt_time m p).2
  have hqr := (numberAt_time m q).2
  have hadd := libAddx_gives hp hq hmixed (by omega)
  rw [libSubTimes, deltaBit_absolute hx, deltaBit_delta hd]
  simpa using hadd

/-- Two times of one sign: the difference of their magnitudes, as a delta time. -/
theorem libSubTimes_same (hp : Clear r p 8) (hq : Clear r q 8)
    (hsign : timeAt m p < 0 ↔ timeAt m q < 0) :
    Gives (libSubTimes m p q r) r (-|timeAt m p - timeAt m q|) := by
  obtain ⟨hpn, hpr⟩ := numberAt_time m p
  obtain ⟨hqn, hqr⟩ := numberAt_time m q
  have hbits : deltaBit m p = deltaBit m q := by
    cases deltaBit_cases m p with
    | inl h => rw [h.1, deltaBit_absolute (by omega)]
    | inr h => rw [h.1, deltaBit_delta (by omega)]
  have hless : compareTimes m p q 7 < 0 ↔ timeAt m p < timeAt m q := by
    rw [compareTimes_neg, hpn, hqn]
    omega
  rw [libSubTimes, if_neg (not_not.mpr hbits)]
  by_cases hlt : timeAt m p < timeAt m q
  · rw [if_pos (hless.mpr hlt), abs_of_neg (by omega), neg_neg]
    exact libSubx_gives hp hq (by omega)
  · rw [if_neg (fun h => hlt (hless.mp h)), abs_of_nonneg (by omega), neg_sub]
    exact libSubx_gives hq hp (by omega)

/-- **Time algebra.**  With an absolute time and a delta time, or two delta times, at `p` and `q`,
    and a result at `r` that is no part of them but may be one of them: what `lib$add_times` and
    `lib$sub_times` give, and that two absolute times are refused. -/
theorem time_algebra (m : Memory) (p q r : Nat) (hp : Clear r p 8) (hq : Clear r q 8) :
    (0 ≤ timeAt m p → timeAt m q < 0 → timeAt m p + |timeAt m q| < 2 ^ 63 →
      Gives (libAddTimes m p q r) r (timeAt m p + |timeAt m q|) ∧
        Gives (libAddTimes m q p r) r (timeAt m p + |timeAt m q|)) ∧
    (timeAt m p < 0 → timeAt m q < 0 → |timeAt m p| + |timeAt m q| ≤ 2 ^ 63 →
      Gives (libAddTimes m p q r) r (timeAt m p + timeAt m q)) ∧
    (∀ t, 0 ≤ t → timeAt m q < 0 → timeAt m p = t + |timeAt m q| →
      Gives (libSubTimes m p q r) r t) ∧
    (∀ d, d < 0 → 0 ≤ timeAt m q → timeAt m p = timeAt m q + |d| →
      Gives (libSubTimes m p q r) r d) ∧
    (timeAt m p < 0 → timeAt m q < 0 →
      Gives (libSubTimes m p q r) r (-|(|timeAt m p| - |timeAt m q|)|) ∧
        Gives (libSubTimes m q p r) r (-|(|timeAt m p| - |timeAt m q|)|)) ∧
    (0 ≤ timeAt m p → 0 ≤ timeAt m q → libAddTimes m p q r = (oneDelTim, m)) := by
  refine ⟨libAddTimes_mixed hp hq, libAddTimes_deltas hp hq, ?_, ?_, ?_, libAddTimes_absolute⟩
  · intro t ht hd hx
    rw [abs_of_neg hd] at hx
    have hsub := libSubTimes_mixed hp hq (by omega) hd
    rwa [hx, neg_add_cancel_right] at hsub
  · intro d hd ht hx
    rw [abs_of_neg hd] at hx
    have hsub := libSubTimes_same (m := m) hp hq (by omega)
    rwa [hx, abs_of_pos (by omega), show -(timeAt m q + -d - timeAt m q) = d by omega] at hsub
  · intro hd he
    have hsub := libSubTimes_same (m := m) hp hq (by omega)
    have hback := libSubTimes_same (m := m) hq hp (by omega)
    rw [abs_sub_comm] at hsub
    rw [abs_of_neg hd, abs_of_neg he, neg_sub_neg]
    exact ⟨hsub, hback⟩

/-- A delta time of 5 at 0 and one of 2 at 8. -/
def fiveAndTwo : Memory := fun p =>
  ([0xFB, 0xFF, 0xFF, 0xFF, 0xFF, 0xFF, 0xFF, 0xFF,
    0xFE, 0xFF, 0xFF, 0xFF, 0xFF, 0xFF, 0xFF, 0xFF] : List Byte).getD p 0

theorem time_algebra_five_and_two : Gives (libAddTimes fiveAndTwo 0 8 8) 8 (-7) := by
  have hfive : timeAt fiveAndTwo 0 = -5 := by decide +kernel
  have htwo : timeAt fiveAndTwo 8 = -2 := by decide +kernel
  have hadd := (time_algebra fiveAndTwo 0 8 8 (by simp [Clear]) (by simp [Clear])).2.1
  rw [hfive, htwo] at hadd
  exact hadd (by decide) (by decide) (by norm_num)

end Algebra

end FreeVMS.Rtl
