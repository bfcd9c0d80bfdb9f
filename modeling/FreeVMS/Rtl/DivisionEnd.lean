import FreeVMS.Rtl.DivisionLoops

/-!
# When the division ends

The outer loop is left exactly where enough digits other than zero have been produced or nothing is
left of the dividend, if that comes before digit 65535 and the precision is still an `int`.
-/

namespace FreeVMS.Rtl.Num

open Lib.Digits Lib.LongDivision

/-! ### Behind the last digit -/

theorem closed_precision (s : Division) (behind : Int → Byte) (r : Remainder)
    (quotientA : List Byte) (order : Ordering) :
    (s.closed behind r quotientA order).precision = s.precision ∨
      (s.closed behind r quotientA order).precision = s.precision + 1 :=
  Or.symm (ite_eq_or_eq _ _ _)

/-- A precision that is no `int` does not stop the loop. -/
theorem int_of_long_lt {precision : Int} (h : 2 ^ 31 - 1 ≤ precision) :
    (BitVec.ofInt 32 (precision + 1)).toInt < precision := by
  have hlt := BitVec.toInt_lt (x := BitVec.ofInt 32 (precision + 1))
  have hnext : precision = 2 ^ 31 - 1 ∨ 2 ^ 31 ≤ precision := by omega
  rcases hnext with rfl | hle
  · decide
  · omega

/-- Nothing is left of the dividend, but `k` is not behind the precision: from then on there are only
    zeros, and the loop does not end. -/
structure Stuck (s : Division) : Prop where
  part : s.quotientA = [zero]
  rest : s.quotientB = []
  divisor : Plain s.divisor
  pos : 0 < number s.divisor
  precision : 2 ^ 31 - 1 ≤ s.precision
  k_le : s.k ≤ s.precision

/-- The next digit, if it has the room, is zero again. -/
theorem Stuck.step {s s' : Division} (h : Stuck s) {behind : Int → Byte} {bsign steps : Nat}
    (hstep : divideStep behind bsign steps s = .ok (some s')) : Stuck s' := by
  have hplain : Plain [zero, zero] := ⟨List.cons_ne_nil _ _, by decide, by decide⟩
  have hopened : s.opened.quotientA = [zero, zero] ∧ s.opened.quotientB = [] ∧
      s.opened.divisor = s.divisor ∧ s.opened.precision = s.precision := by
    have hpart := h.part
    have hrest := h.rest
    unfold Division.opened Division.bringDown
    simp only [hrest, hpart]
    exact ⟨rfl, trivial, trivial, trivial⟩
  obtain ⟨hpart, hrest, hdivisor, hprecision⟩ := hopened
  rw [divideStep, bind_eq_ok] at hstep
  obtain ⟨_, _, hstep⟩ := hstep
  rw [bind_eq_ok] at hstep
  obtain ⟨r, hinner, hstep⟩ := hstep
  cases r with
  | none => cases hstep
  | some r =>
    cases steps with
    | zero => cases hinner
    | succ steps =>
      have hsmall : number s.opened.quotientA < number s.opened.divisor := by
        rw [hpart, hdivisor]
        exact h.pos
      rw [subtractLoop_stop (by rw [hpart]; exact hplain) (by rw [hdivisor]; exact h.divisor)
        hsmall] at hinner
      have hr := Option.some.inj (Except.ok.inj hinner)
      have hpart' : r.quotientA = [zero] := by
        rw [← hr, hpart]
        rfl
      have hdivisor' : r.divisor = lzerotrim s.divisor := by rw [← hr, ← hdivisor]
      have hcompare : ncompareTrim [zero] [zero] = .ok ([zero], [zero], .eq) := rfl
      simp only [hpart', hcompare, bind, Except.bind, pure, Except.pure, Except.ok.injEq,
        Option.some.injEq] at hstep
      subst hstep
      obtain ⟨hplain', _, hnumber', _⟩ := trim_plain h.divisor
      have hk := int_of_long_lt h.precision
      have hlow := h.precision
      have hcount := closed_precision s.opened behind r [zero] .eq
      have hclosed : (s.opened.closed behind r [zero] .eq).k =
          (BitVec.ofInt 32 (s.precision + 1)).toInt + 1 := by
        simp only [Division.closed, hrest, hprecision, and_self, if_true]
      rw [hprecision] at hcount
      refine ⟨rfl, hrest, ?_, ?_, by omega, by omega⟩
      · simp only [Division.closed, hdivisor']
        exact hplain'
      · simp only [Division.closed, hdivisor', hnumber']
        exact h.pos

theorem divideLoop_stuck {behind : Int → Byte} {bsign steps : Nat} : ∀ {s t : Division}, Stuck s →
    divideLoop behind bsign steps s ≠ .ok (some t) := by
  induction steps with
  | zero =>
    intro s t _ h
    cases h
  | succ steps ih =>
    intro s t hs h
    rcases divideLoop_cases h with ⟨hstop, _⟩ | ⟨_, s', hstep, hrun⟩
    · have hk := hs.k_le
      omega
    · exact ih (hs.step hstep) hrun

/-! ### Where the loop is left -/

/-- More digits other than zero than the precision was set to. -/
def Enough (a b : Decimal) (first : Int) (k : Nat) : Prop := first < nonzeros 10 (quotient a b k)

instance (a b : Decimal) (first : Int) (k : Nat) : Decidable (Enough a b first k) :=
  inferInstanceAs (Decidable (_ < _))

/-- What the precision has come to is still an `int`. -/
def StillInt (a b : Decimal) (first : Int) (k : Nat) : Prop :=
  first + k - nonzeros 10 (quotient a b (k - 1)) < 2 ^ 31

/-- The loop may be left behind `k` digits. -/
def Stops (a b : Decimal) (first : Int) (k : Nat) : Prop :=
  Enough a b first k ∨ Spent a b k ∧ StillInt a b first k

section Run

variable {a b : Decimal} {first : Int}

theorem nonzeros_quotient_succ (ha : Digits a.digits) (hb : 0 < number b.digits) (k : Nat) :
    nonzeros 10 (quotient a b k) ≤ nonzeros 10 (quotient a b (k + 1)) ∧
      nonzeros 10 (quotient a b (k + 1)) ≤ nonzeros 10 (quotient a b k) + 1 := by
  rw [quotient_succ hb, nonzeros_step (by decide) (newDigit_lt ha hb k)]
  split <;> omega

theorem nonzeros_quotient_le (ha : Digits a.digits) (hb : 0 < number b.digits) (k : Nat) :
    nonzeros 10 (quotient a b k) ≤ k := by
  induction k with
  | zero => simp [quotient, brought]
  | succ k ih => exact (nonzeros_quotient_succ ha hb k).2.trans (Nat.succ_le_succ ih)

/-- Enough digits are there before the precision is too large for an `int`. -/
theorem stillInt_of_enough (ha : Digits a.digits) (hb : 0 < number b.digits) {k : Nat}
    (hk : k ≤ 65535) (h : Enough a b first k) : StillInt a b first k := by
  have hle := nonzeros_quotient_le ha hb k
  unfold Enough at h
  unfold StillInt
  omega

theorem AtDigit.goes_iff {k : Nat} {s : Division} (h : AtDigit a b first k s) :
    s.precision < s.k ↔ Enough a b first k := by
  have hk := h.k_eq
  have hprecision := h.precision
  unfold Enough
  omega

/-- Where nothing is left, the loop is left. -/
theorem Stepped.stops {k : Nat} {s s' : Division} (hs : AtDigit a b first k s)
    (h : Stepped a b first k s s') (hspent : Spent a b (k + 1))
    (hint : StillInt a b first (k + 1)) (hgo : s.k ≤ s.precision) : s'.precision < s'.k := by
  obtain ⟨hk, hprecision, _⟩ := h.spent hspent
  have hbefore := hs.precision
  have hk0 := hs.k_eq
  unfold StillInt at hint
  rw [Nat.add_sub_cancel] at hint
  have hwrap : (BitVec.ofInt 32 (s.precision + 1)).toInt = s.precision + 1 := by
    rw [BitVec.toInt_ofInt]
    apply Int.bmod_eq_of_le <;> omega
  omega

theorem Stepped.stuck (hpos : 0 < number b.digits) {k : Nat} {s s' : Division}
    (hs : AtDigit a b first k s) (h : Stepped a b first k s s') (hspent : Spent a b (k + 1))
    (hint : ¬ StillInt a b first (k + 1)) : Stuck s' := by
  obtain ⟨hk, hprecision, hpart, hrest, hdivisor, hnumber⟩ := h.spent hspent
  have hbefore := hs.precision
  unfold StillInt at hint
  rw [Nat.add_sub_cancel] at hint
  have hlow : 2 ^ 31 - 1 ≤ s.precision := by omega
  have hwrap := int_of_long_lt hlow
  exact ⟨hpart, hrest, hdivisor, hnumber ▸ hpos, by omega, by omega⟩

/-- **Enough steps lead to the first place where the loop may be left.** -/
theorem divideLoop_ends (ha : Digits a.digits) (hb : 0 < number b.digits) (behind : Int → Byte)
    {stop : Nat} (hstop : stop ≤ 65535) (hend : Stops a b first stop) {m : Nat} :
    ∀ {k : Nat} {s : Division}, AtDigit a b first k s → k + m + 1 = stop →
      (∀ i, k ≤ i → i < stop → ¬ Enough a b first i) → (∀ i, k < i → i < stop → ¬ Spent a b i) →
      ∃ t, divideLoop behind 0 (m + 12) s = .ok (some t) ∧ Produced a b stop t := by
  induction m with
  | zero =>
    intro k s hs hk henough _
    have hgo : s.k ≤ s.precision := by
      have hnot := henough k (le_refl k) (by omega)
      rw [← hs.goes_iff] at hnot
      omega
    obtain ⟨s', hstep, hstepped⟩ :=
      (divideStep_spec ha hb hs (by omega) behind (Or.inl rfl) 11).resolve_right (by omega)
    obtain rfl : k + 1 = stop := by omega
    refine ⟨s', ?_, hstepped.produced⟩
    rw [divideLoop_next hgo hstep]
    apply divideLoop_stop
    by_cases hspent : Spent a b (k + 1)
    · have hint : StillInt a b first (k + 1) := by
        rcases hend with henough | ⟨_, hint⟩
        · exact stillInt_of_enough ha hb hstop henough
        · exact hint
      exact hstepped.stops hs hspent hint hgo
    · rw [(hstepped.next hspent).goes_iff]
      exact hend.resolve_right fun h => hspent h.1
  | succ m ih =>
    intro k s hs hk henough hspent
    have hgo : s.k ≤ s.precision := by
      have hnot := henough k (le_refl k) (by omega)
      rw [← hs.goes_iff] at hnot
      omega
    obtain ⟨s', hstep, hstepped⟩ :=
      (divideStep_spec ha hb hs (by omega) behind (Or.inl rfl) (m + 12)).resolve_right (by omega)
    obtain ⟨t, hrun, hproduced⟩ := ih (hstepped.next (hspent (k + 1) (by omega) (by omega)))
      (by omega) (fun i hi => henough i (by omega)) (fun i hi => hspent i (by omega))
    exact ⟨t, by rw [divideLoop_next hgo hstep, hrun], hproduced⟩

/-- **And it is left nowhere else.** -/
theorem divideLoop_ended (ha : Digits a.digits) (hb : 0 < number b.digits) {behind : Int → Byte}
    {steps : Nat} : ∀ {k : Nat} {s t : Division}, AtDigit a b first k s → k ≤ 65535 →
      ¬ Enough a b first k → divideLoop behind 0 steps s = .ok (some t) →
      ∃ stop, k < stop ∧ stop ≤ 65535 ∧ Stops a b first stop ∧ Produced a b stop t ∧
        ∀ i, k < i → i < stop → ¬ Enough a b first i ∧ ¬ Spent a b i := by
  induction steps with
  | zero =>
    intro k s t _ _ _ h
    cases h
  | succ steps ih =>
    intro k s t hs hk henough h
    rcases divideLoop_cases h with ⟨hstop, _⟩ | ⟨hgo, s', hstep, hrun⟩
    · exact absurd (hs.goes_iff.mp hstop) henough
    · have hk' : k ≤ 65534 := by
        by_contra hlast
        obtain rfl : k = 65535 := by omega
        rw [divideStep_last hs] at hstep
        cases hstep
      have hstepped : Stepped a b first k s s' := by
        rcases divideStep_spec ha hb hs hk' behind (Or.inl rfl) steps with
          ⟨s'', hstep', hstepped⟩ | ⟨_, hnone⟩
        · rw [hstep] at hstep'
          cases hstep'
          exact hstepped
        · rw [hstep] at hnone
          cases hnone
      have hhere : s'.precision < s'.k → Stops a b first (k + 1) →
          ∃ stop, k < stop ∧ stop ≤ 65535 ∧ Stops a b first stop ∧ Produced a b stop t ∧
            ∀ i, k < i → i < stop → ¬ Enough a b first i ∧ ¬ Spent a b i := by
        intro hleft hstops
        have ht : t = s' := by
          cases steps with
          | zero => cases hrun
          | succ steps =>
            rw [divideLoop_stop hleft] at hrun
            cases hrun
            rfl
        refine ⟨k + 1, by omega, by omega, hstops, ht ▸ hstepped.produced, ?_⟩
        intro i hi hi'
        omega
      by_cases hspent : Spent a b (k + 1)
      · by_cases hint : StillInt a b first (k + 1)
        · exact hhere (hstepped.stops hs hspent hint hgo) (Or.inr ⟨hspent, hint⟩)
        · exact absurd hrun (divideLoop_stuck (hstepped.stuck hb hs hspent hint))
      · have hnext := hstepped.next hspent
        by_cases hmore : Enough a b first (k + 1)
        · exact hhere (hnext.goes_iff.mpr hmore) (Or.inl hmore)
        · obtain ⟨stop, hlt, hle, hstops, hproduced, hbefore⟩ := ih hnext (by omega) hmore hrun
          refine ⟨stop, by omega, hle, hstops, hproduced, ?_⟩
          intro i hi hi'
          by_cases heq : i = k + 1
          · rw [heq]
            exact ⟨hmore, hspent⟩
          · exact hbefore i (by omega) hi'

theorem stillInt_mono (ha : Digits a.digits) (hb : 0 < number b.digits) {j k : Nat} (hj : 1 ≤ j)
    (hjk : j ≤ k) (h : StillInt a b first k) : StillInt a b first j := by
  induction k, hjk using Nat.le_induction with
  | base => exact h
  | succ k hk ih =>
    apply ih
    obtain ⟨k, rfl⟩ := Nat.exists_eq_add_of_le' (hj.trans hk)
    have hstep := (nonzeros_quotient_succ ha hb k).2
    unfold StillInt at h ⊢
    rw [Nat.add_sub_cancel] at h ⊢
    push_cast at h ⊢
    omega

/-- Where the loop may be left, there is a first place. -/
theorem first_stop (ha : Digits a.digits) (hb : 0 < number b.digits) (hfirst : 0 ≤ first) {k : Nat}
    (hk : 1 ≤ k) (hle : k ≤ 65535) (h : Stops a b first k) :
    ∃ stop, 1 ≤ stop ∧ stop ≤ k ∧ Stops a b first stop ∧ (∀ i, i < stop → ¬ Enough a b first i) ∧
      ∀ i, 0 < i → i < stop → ¬ Spent a b i := by
  classical
  have hint : StillInt a b first k := by
    rcases h with henough | ⟨_, hint⟩
    · exact stillInt_of_enough ha hb hle henough
    · exact hint
  have hexists : ∃ i, 1 ≤ i ∧ (Enough a b first i ∨ Spent a b i) :=
    ⟨k, hk, h.imp_right And.left⟩
  obtain ⟨hone, hdone⟩ := Nat.find_spec hexists
  have hmin : ∀ i, i < Nat.find hexists → ¬ (1 ≤ i ∧ (Enough a b first i ∨ Spent a b i)) :=
    fun i => Nat.find_min hexists
  have hfind : Nat.find hexists ≤ k := Nat.find_min' hexists ⟨hk, h.imp_right And.left⟩
  refine ⟨Nat.find hexists, hone, hfind, ?_, ?_, ?_⟩
  · rcases hdone with henough | hspent
    · exact Or.inl henough
    · exact Or.inr ⟨hspent, stillInt_mono ha hb hone hfind hint⟩
  · intro i hi henough
    by_cases hzero : i = 0
    · rw [hzero, Enough, quotient, brought] at henough
      simp at henough
      omega
    · exact hmin i hi ⟨by omega, Or.inl henough⟩
  · intro i hpos hi hspent
    exact hmin i hi ⟨hpos, Or.inr hspent⟩

/-- A dividend that is not zero does not come to an end in front of its first digit. -/
theorem not_spent_of_quotient (ha : number a.digits ≠ 0) {k : Nat}
    (h : quotient a b k = 0) : ¬ Spent a b k := by
  rintro ⟨hlen, hrem⟩
  have hbrought : brought a.digits k = 0 := by
    have hsplit := Nat.mod_add_div (brought a.digits k) (number b.digits)
    unfold remainder at hrem
    unfold quotient at h
    rw [hrem, h] at hsplit
    omega
  rw [brought, List.take_of_length_le hlen, mul_eq_zero] at hbrought
  rcases hbrought with hzero | hpow
  · exact ha hzero
  · exact absurd hpow (Nat.pow_pos (by decide)).ne'

/-- **A negative divisor keeps the loop going** until a digit other than zero is due, and that is
    never finished. -/
theorem divideLoop_negative (ha : Digits a.digits) (hb : 0 < number b.digits)
    (hne : number a.digits ≠ 0) (hfirst : 0 ≤ first) {behind : Int → Byte} {steps : Nat} :
    ∀ {k : Nat} {s t : Division}, AtDigit a b first k s → k ≤ 65535 → quotient a b k = 0 →
      divideLoop behind 1 steps s ≠ .ok (some t) := by
  induction steps with
  | zero =>
    intro k s t _ _ _ h
    cases h
  | succ steps ih =>
    intro k s t hs hk hzero h
    rcases divideLoop_cases h with ⟨hstop, _⟩ | ⟨_, s', hstep, hrun⟩
    · rw [hs.goes_iff, Enough, hzero, nonzeros_zero] at hstop
      omega
    · have hk' : k ≤ 65534 := by
        by_contra hlast
        obtain rfl : k = 65535 := by omega
        rw [divideStep_last hs] at hstep
        cases hstep
      by_cases hle : number b.digits ≤ partDividend a b k
      · exact divideStep_negative ha hs hk' behind hle steps hstep
      · have hnext : quotient a b (k + 1) = 0 := by
          rw [quotient_succ hb, hzero, Nat.div_eq_of_lt (by omega)]
        rcases divideStep_spec ha hb hs hk' behind (Or.inr (by omega)) steps with
          ⟨s'', hstep', hstepped⟩ | ⟨_, hnone⟩
        · rw [hstep] at hstep'
          cases hstep'
          exact ih (hstepped.next (not_spent_of_quotient hne hnext)) (by omega) hnext hrun
        · rw [hstep] at hnone
          cases hnone

end Run

/-! ### Termination -/

/-- The precision in front of the first digit. -/
def firstPrecision (tdigits : BitVec 64) (rti : Nat) : Int :=
  if rti = 1 then tdigits.toInt + 1 else tdigits.toInt

/-- Both loops are left, if the call gets to them. -/
def Terminates (behind : Int → Byte) (a b : Decimal) (tdigits : BitVec 64) (rti : Nat) : Prop :=
  divideEarly a b = none →
    ∃ steps s, divideLoop behind b.sign steps (divideStart a b tdigits rti) = .ok (some s)

/-- The call does not get to the loops or asks for a negative number of digits, or the divisor is not
    negative and at most 65535 digits bring the division to an end. -/
def EndsWithin (a b : Decimal) (tdigits : BitVec 64) (rti : Nat) : Prop :=
  ¬ signsValid a b ∨ number a.digits = 0 ∨ firstPrecision tdigits rti < 0 ∨
    b.sign = 0 ∧ ∃ k, 1 ≤ k ∧ k ≤ 65535 ∧ Stops a b (firstPrecision tdigits rti) k

theorem number_eq_zero_iff {s : List Byte} (h : Digits s) :
    number s = 0 ↔ ∀ c ∈ s, c = zero := by
  induction s with
  | nil => simp
  | cons c s ih =>
    rw [digits_cons] at h
    have hpow : 10 ^ s.length ≠ 0 := (Nat.pow_pos (by decide)).ne'
    have hzero : digitOf c = 0 ↔ c = zero := by
      rw [← digitChr_eq_zero_iff (digitOf_lt h.1), digitChr_digitOf h.1]
    rw [number_cons, Nat.add_eq_zero_iff, Nat.mul_eq_zero, or_iff_left hpow, hzero, ih h.2,
      List.forall_mem_cons]

theorem atDigit_start {a b : Decimal} (hb : Plain b.digits) (tdigits : BitVec 64) (rti : Nat) :
    AtDigit a b (firstPrecision tdigits rti) 0 (divideStart a b tdigits rti) := by
  have hquotient : quotient a b 0 = 0 := by simp [quotient, brought]
  have hremainder : remainder a b 0 = 0 := by simp [remainder, brought]
  refine ⟨rfl, ?_, rfl, rfl, digits_nil, hquotient.symm, digits_nil, le_refl 0, hremainder.symm, rfl, hb,
    rfl, ?_, rfl⟩
  · rw [hquotient, nonzeros_zero]
    rfl
  · rw [Nat.zero_sub]
    exact (sub_zero _).symm

theorem divideEarly_eq_none_iff {a b : Decimal} (ha : Digits a.digits)
    (hne : ∃ c ∈ b.digits, c ≠ zero) :
    divideEarly a b = none ↔ signsValid a b = true ∧ number a.digits ≠ 0 := by
  have hdivisor : ¬ ∀ c ∈ b.digits, c = zero := by
    obtain ⟨c, hc, hcz⟩ := hne
    exact fun h => hcz (h c hc)
  rw [divideEarly, if_neg hdivisor, ne_eq, number_eq_zero_iff ha]
  by_cases hvalid : signsValid a b = true
  · rw [if_neg (not_not_intro hvalid)]
    by_cases hzero : ∀ c ∈ a.digits, c = zero
    · rw [if_pos hzero]
      exact iff_of_false (by simp) fun h => h.2 hzero
    · rw [if_neg hzero]
      exact iff_of_true rfl ⟨hvalid, hzero⟩
  · rw [if_pos hvalid]
    exact iff_of_false (by simp) fun h => hvalid h.1

/-- **Exactly when the loops of `str$divide` are left.** -/
theorem divide_terminates_iff (behind : Int → Byte) (a b : Decimal) (tdigits : BitVec 64) (rti : Nat)
    (ha : Digits a.digits) (hb : Digits b.digits) (hlen : b.digits.length ≤ 65535)
    (hne : ∃ c ∈ b.digits, c ≠ zero) :
    Terminates behind a b tdigits rti ↔ EndsWithin a b tdigits rti := by
  have hplain : Plain b.digits := by
    obtain ⟨c, hc, _⟩ := hne
    exact ⟨List.ne_nil_of_mem hc, hb, hlen⟩
  have hpos : 0 < number b.digits := by
    rw [Nat.pos_iff_ne_zero, ne_eq, number_eq_zero_iff hb]
    obtain ⟨c, hc, hcz⟩ := hne
    exact fun h => hcz (h c hc)
  have hstart := atDigit_start (a := a) hplain tdigits rti
  have hzero : quotient a b 0 = 0 := by simp [quotient, brought]
  unfold Terminates EndsWithin
  rw [divideEarly_eq_none_iff ha hne]
  by_cases hvalid : signsValid a b = true
  · by_cases hnumber : number a.digits = 0
    · exact iff_of_true (fun h => absurd hnumber h.2) (Or.inr (Or.inl hnumber))
    · by_cases hfirst : firstPrecision tdigits rti < 0
      · refine iff_of_true (fun _ => ⟨1, _, divideLoop_stop hfirst⟩) (Or.inr (Or.inr (Or.inl hfirst)))
      · have hnone : ¬ Enough a b (firstPrecision tdigits rti) 0 := by
          rw [Enough, hzero, nonzeros_zero]
          exact hfirst
        rw [or_iff_right (not_not_intro hvalid), or_iff_right hnumber, or_iff_right hfirst]
        constructor
        · intro h
          obtain ⟨steps, s, hrun⟩ := h ⟨hvalid, hnumber⟩
          simp only [signsValid, decide_eq_true_eq] at hvalid
          rcases hvalid.2 with hsign | hsign
          · rw [hsign] at hrun
            exact absurd hrun
              (divideLoop_negative ha hpos hnumber (by omega) hstart (by omega) hzero)
          · rw [hsign] at hrun
            obtain ⟨stop, hlt, hle, hstops, _⟩ :=
              divideLoop_ended ha hpos hstart (by omega) hnone hrun
            exact ⟨hsign, stop, hlt, hle, hstops⟩
        · rintro ⟨hsign, k, hk, hle, hstops⟩ _
          obtain ⟨stop, hone, hstop, hstops', henough, hspent⟩ :=
            first_stop ha hpos (by omega) hk hle hstops
          obtain ⟨s, hrun, _⟩ := divideLoop_ends (m := stop - 1) ha hpos behind (hstop.trans hle)
            hstops' hstart (by omega) (fun i _ => henough i) hspent
          exact ⟨_, s, hsign ▸ hrun⟩
  · refine iff_of_true (fun h => absurd h.1 hvalid) (Or.inl hvalid)

/-- 8 / 2 is done with its only digit. -/
theorem eight_by_two_terminates :
    Terminates (fun _ => 0) ⟨0, 0, [56]⟩ ⟨0, 0, [50]⟩ 3 0 := by
  apply (divide_terminates_iff (fun _ => 0) ⟨0, 0, [56]⟩ ⟨0, 0, [50]⟩ 3 0 (by decide) (by decide)
    (by decide) ⟨50, by decide, by decide⟩).mpr
  refine Or.inr (Or.inr (Or.inr ⟨rfl, 1, le_refl 1, by decide, Or.inr ⟨⟨by decide, by decide⟩, ?_⟩⟩))
  have hzero : quotient ⟨0, 0, [56]⟩ ⟨0, 0, [50]⟩ 0 = 0 := rfl
  rw [StillInt, Nat.sub_self, hzero, nonzeros_zero]
  decide

/-- 1 / -1 is not: what is left grows. -/
theorem one_by_minus_one :
    ¬ Terminates (fun _ => 0) ⟨0, 0, [49]⟩ ⟨1, 0, [49]⟩ 1 0 := by
  intro h
  obtain ⟨steps, s, hrun⟩ := h (by decide)
  have hplain : Plain [49] := ⟨List.cons_ne_nil _ _, by decide, by decide⟩
  refine divideLoop_negative (by decide) (by decide) (by decide) (by decide)
    (atDigit_start (b := ⟨1, 0, [49]⟩) hplain 1 0) (by decide) rfl hrun

end FreeVMS.Rtl.Num
