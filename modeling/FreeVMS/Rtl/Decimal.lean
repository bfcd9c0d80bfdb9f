import FreeVMS.Lib.Scaled
import FreeVMS.Rtl.Numeral

/-!
# Decimal numbers of the string library

A number is a sign, an exponent in a `long`, and the digits of a dynamic string. What the routines
do to every result before they return it, and when the exponent survives that.
-/

namespace FreeVMS.Rtl.Num

open Lib.Digits Lib.Scaled

/-- How a call ends when it does not return. -/
inductive Fault where
  | nullPointer
  | outOfBounds
  deriving DecidableEq, Repr

/-- `sign, exp, digits`. The null pointer of a dynamic string is the empty list. -/
structure Decimal where
  sign : Nat
  exp : BitVec 64
  digits : List Byte
  deriving DecidableEq, Repr

/-- `'0'` -/
def zero : Byte := 48

/-! ## The trims -/

/-- `str$$lzerotrim` -/
def lzerotrim : List Byte → List Byte
  | [] => []
  | [c] => [c]
  | c :: d :: s => if c = zero then lzerotrim (d :: s) else c :: d :: s

/-- `str$$rzerotrim` on a string read from its end. -/
def rzerotrimEnd : List Byte → BitVec 64 → List Byte × BitVec 64
  | [], exp => ([], exp)
  | [c], exp => ([c], exp)
  | c :: d :: s, exp => if c = zero then rzerotrimEnd (d :: s) (exp + 1) else (c :: d :: s, exp)

def rzerotrim (s : List Byte) (exp : BitVec 64) : List Byte × BitVec 64 :=
  ((rzerotrimEnd s.reverse exp).1.reverse, (rzerotrimEnd s.reverse exp).2)

instance decidableZeros (s : List Byte) : Decidable (∀ c ∈ s, c = zero) :=
  List.decidableBAll (fun c => c = zero) s

/-- `str$$iszerotrim` -/
def iszerotrim (s : List Byte) (exp : BitVec 64) : BitVec 64 :=
  if s ≠ [] ∧ ∀ c ∈ s, c = zero then 0 else exp

/-- The three trims behind each other. They read through the pointer. -/
def trim (sign : Nat) (exp : BitVec 64) (s : List Byte) : Except Fault Decimal :=
  if s = [] then .error .nullPointer
  else
    let trimmed := rzerotrim (lzerotrim s) exp
    .ok ⟨sign, iszerotrim trimmed.1 trimmed.2, trimmed.1⟩

/-! ## Values -/

/-- A value with a sign: 0 for plus, 1 for minus. -/
def signed (sign : Nat) (n : Int) : Int := (-1) ^ sign * n

def Decimal.value (d : Decimal) : ℚ := scaled 10 (signed d.sign (number d.digits)) d.exp.toInt

/-- No leading zero, and no trailing one unless the value is 0 with exponent 0. -/
def Decimal.Canonical (d : Decimal) : Prop :=
  d.digits ≠ [] ∧ Digits d.digits ∧
    (d.digits = [zero] ∧ d.exp = 0 ∨ d.digits.head? ≠ some zero ∧ d.digits.getLast? ≠ some zero)

/-- In the canonical form of a value the exponent is one of a `long`. -/
def Fits (v : ℚ) : Prop :=
  v = 0 ∨ ∃ (n : Int) (exp : BitVec 64), ¬ (10 : Int) ∣ n ∧ v = scaled 10 n exp.toInt

theorem signed_zero_left (n : Int) : signed 0 n = n := by
  simp [signed]

theorem signed_one (n : Int) : signed 1 n = -n := by
  simp [signed]

theorem dvd_signed_iff {sign : Nat} {b n : Int} : b ∣ signed sign n ↔ b ∣ n := by
  rcases neg_one_pow_eq_or Int sign with h | h <;> simp [signed, h]

/-! ## What the trims leave -/

theorem lzerotrim_spec {s : List Byte} (hs : s ≠ []) :
    ∃ t, s = List.replicate t zero ++ lzerotrim s ∧ lzerotrim s ≠ [] ∧
      (lzerotrim s = [zero] ∨ (lzerotrim s).head? ≠ some zero) := by
  induction s with
  | nil => exact absurd rfl hs
  | cons c s ih =>
    cases s with
    | nil =>
      refine ⟨0, rfl, List.cons_ne_nil c [], ?_⟩
      by_cases hc : c = zero
      · left
        rw [lzerotrim, hc]
      · right
        simpa [lzerotrim] using hc
    | cons d s =>
      rw [lzerotrim]
      split
      · next hc =>
        obtain ⟨t, hsplit, hne, hhead⟩ := ih (List.cons_ne_nil d s)
        refine ⟨t + 1, ?_, hne, hhead⟩
        rw [List.replicate_succ, List.cons_append, ← hsplit, hc]
      · next hc => exact ⟨0, rfl, List.cons_ne_nil c _, Or.inr (by simpa using hc)⟩

/-- From its end, a string loses the zeros that the other trim takes from the front, and the
    exponent counts them. -/
theorem rzerotrimEnd_spec {s : List Byte} (hs : s ≠ []) (exp : BitVec 64) :
    ∃ t, s = List.replicate t zero ++ (rzerotrimEnd s exp).1 ∧
      (rzerotrimEnd s exp).2 = exp + BitVec.ofNat 64 t ∧ (rzerotrimEnd s exp).1 ≠ [] ∧
      ((rzerotrimEnd s exp).1 = [zero] ∨ (rzerotrimEnd s exp).1.head? ≠ some zero) := by
  induction s generalizing exp with
  | nil => exact absurd rfl hs
  | cons c s ih =>
    cases s with
    | nil =>
      refine ⟨0, rfl, (BitVec.add_zero exp).symm, List.cons_ne_nil c [], ?_⟩
      by_cases hc : c = zero
      · left
        rw [rzerotrimEnd, hc]
      · right
        simpa [rzerotrimEnd] using hc
    | cons d s =>
      rw [rzerotrimEnd]
      split
      · next hc =>
        obtain ⟨t, hsplit, hexp, hne, hhead⟩ := ih (List.cons_ne_nil d s) (exp + 1)
        refine ⟨t + 1, ?_, ?_, hne, hhead⟩
        · rw [List.replicate_succ, List.cons_append, ← hsplit, hc]
        · rw [hexp, BitVec.add_assoc]
          congr 1
          rw [Nat.add_comm t 1, BitVec.ofNat_add]
          rfl
      · next hc =>
        exact ⟨0, rfl, (BitVec.add_zero exp).symm, List.cons_ne_nil c _, Or.inr (by simpa using hc)⟩

theorem rzerotrim_spec {s : List Byte} (hs : s ≠ []) (exp : BitVec 64) :
    ∃ t, s = (rzerotrim s exp).1 ++ List.replicate t zero ∧
      (rzerotrim s exp).2 = exp + BitVec.ofNat 64 t ∧ (rzerotrim s exp).1 ≠ [] ∧
      ((rzerotrim s exp).1 = [zero] ∨ (rzerotrim s exp).1.getLast? ≠ some zero) := by
  have hrev : s.reverse ≠ [] := by simpa using hs
  obtain ⟨t, hsplit, hexp, hne, hhead⟩ := rzerotrimEnd_spec hrev exp
  refine ⟨t, ?_, hexp, by simpa [rzerotrim] using hne, ?_⟩
  · rw [rzerotrim, ← List.reverse_inj, List.reverse_append, List.reverse_reverse,
      List.reverse_replicate]
    exact hsplit
  · rcases hhead with hone | hhead
    · left
      simp [rzerotrim, hone]
    · right
      simpa [rzerotrim] using hhead

/-- What the trims take away in front and behind, and what is left. -/
theorem trim_spec (sign : Nat) (exp : BitVec 64) {s : List Byte} (hs : s ≠ []) :
    ∃ (r : List Byte) (lead trail : Nat),
      s = List.replicate lead zero ++ (r ++ List.replicate trail zero) ∧
      ((r = [zero] ∧ trim sign exp s = .ok ⟨sign, 0, r⟩) ∨
        (r ≠ [] ∧ r.head? ≠ some zero ∧ r.getLast? ≠ some zero ∧
          trim sign exp s = .ok ⟨sign, exp + BitVec.ofNat 64 trail, r⟩)) := by
  obtain ⟨lead, hlead, hne, hhead⟩ := lzerotrim_spec hs
  obtain ⟨trail, htrail, hexp, hne', hlast⟩ := rzerotrim_spec hne exp
  have htrim : trim sign exp s = .ok ⟨sign, iszerotrim (rzerotrim (lzerotrim s) exp).1
      (rzerotrim (lzerotrim s) exp).2, (rzerotrim (lzerotrim s) exp).1⟩ := by
    rw [trim, if_neg hs]
  rw [hexp] at htrim
  generalize (rzerotrim (lzerotrim s) exp).1 = r at htrail hne' hlast htrim
  refine ⟨r, lead, trail, by rw [← htrail, ← hlead], ?_⟩
  by_cases hone : r = [zero]
  · refine Or.inl ⟨hone, ?_⟩
    rw [htrim, hone]
    simp [iszerotrim]
  · right
    obtain ⟨c, r, rfl⟩ := List.exists_cons_of_ne_nil hne'
    have hfirst : (c :: r).head? ≠ some zero := by
      rcases hhead with hzero | hhead
      · rw [hzero] at htrail
        cases r with
        | nil =>
          simp only [List.cons_append, List.cons.injEq] at htrail
          exact absurd (by rw [← htrail.1]) hone
        | cons d r => simp at htrail
      · rw [htrail, List.cons_append] at hhead
        exact hhead
    refine ⟨hne', hfirst, hlast.resolve_left hone, ?_⟩
    rw [htrim, iszerotrim, if_neg]
    intro h
    exact hfirst (congrArg some (h.2 c List.mem_cons_self))

/-! ## Zeros and values -/

theorem isDigit_zero : IsDigit zero := by decide

@[simp] theorem number_zeros (t : Nat) : number (List.replicate t zero) = 0 := by
  induction t with
  | zero => rfl
  | succ t ih =>
    rw [List.replicate_succ', number_concat, ih]
    rfl

theorem digits_zeros (t : Nat) : Digits (List.replicate t zero) := by
  intro c hc
  rw [List.eq_of_mem_replicate hc]
  exact isDigit_zero

theorem number_padded (lead trail : Nat) (r : List Byte) :
    number (List.replicate lead zero ++ (r ++ List.replicate trail zero)) =
      number r * 10 ^ trail := by
  simp [number_append]

theorem digits_padded {lead trail : Nat} {r : List Byte} :
    Digits (List.replicate lead zero ++ (r ++ List.replicate trail zero)) ↔ Digits r := by
  simp [digits_append, digits_zeros]

/-- The last digit decides whether ten divides the number. -/
theorem not_dvd_number {r : List Byte} (hd : Digits r) (hne : r ≠ [])
    (hlast : r.getLast? ≠ some zero) : ¬ (10 : Int) ∣ number r := by
  obtain ⟨s, c, rfl⟩ := List.eq_nil_or_concat r |>.resolve_left hne
  rw [List.concat_eq_append] at hd hlast ⊢
  have hc := (digits_append.mp hd).2 c (List.mem_singleton_self c)
  have hzero : digitOf c ≠ 0 := by
    intro h
    apply hlast
    rw [List.getLast?_concat, ← digitChr_digitOf hc, h]
    rfl
  have hlt := digitOf_lt hc
  rw [number_concat]
  push_cast
  omega

/-! ## Whether the exponent fits -/

theorem fits_signed_iff (sign : Nat) {n k : Int} :
    Fits (scaled 10 (signed sign n) k) ↔ Fits (scaled 10 n k) := by
  have hneg : ∀ m : Int, Fits (scaled 10 m k) → Fits (scaled 10 (-m) k) := by
    intro m h
    rw [scaled_neg]
    rcases h with h | ⟨n, exp, hn, h⟩
    · exact Or.inl (by rw [h, neg_zero])
    · exact Or.inr ⟨-n, exp, by rwa [dvd_neg], by rw [h, scaled_neg]⟩
  rcases neg_one_pow_eq_or Int sign with h | h
  · rw [signed, h, one_mul]
  · rw [signed, h, neg_one_mul]
    exact ⟨fun hf => by simpa using hneg _ hf, hneg n⟩

/-- A canonical form fits if and only if its exponent is the one that a `long` holds of it. -/
theorem fits_iff {n k : Int} (hn : ¬ (10 : Int) ∣ n) :
    Fits (scaled 10 n k) ↔ (BitVec.ofInt 64 k).toInt = k := by
  constructor
  · rintro (h | ⟨m, exp, hm, h⟩)
    · rw [scaled_eq_zero_iff (by decide)] at h
      exact absurd (h ▸ dvd_zero 10) hn
    · obtain ⟨_, rfl⟩ := scaled_inj (by decide) hn hm h
      rw [BitVec.ofInt_toInt]
  · intro h
    exact Or.inr ⟨n, BitVec.ofInt 64 k, hn, by rw [h]⟩

/-- **The trims keep the value if and only if the exponent of its canonical form fits.** -/
theorem trim_exact (sign : Nat) {exp : BitVec 64} {k : Int} (hexp : exp = BitVec.ofInt 64 k)
    {s : List Byte} (hs : s ≠ []) (hd : Digits s) :
    ∃ d, trim sign exp s = .ok d ∧ d.sign = sign ∧ d.Canonical ∧
      (d.value = scaled 10 (signed sign (number s)) k ↔
        Fits (scaled 10 (signed sign (number s)) k)) := by
  obtain ⟨r, lead, trail, rfl, hcases⟩ := trim_spec sign exp hs
  rw [digits_padded] at hd
  rw [number_padded]
  rcases hcases with ⟨rfl, htrim⟩ | ⟨hne, hhead, hlast, htrim⟩
  · refine ⟨_, htrim, rfl, ⟨List.cons_ne_nil _ _, hd, Or.inl ⟨rfl, rfl⟩⟩, ?_⟩
    have hzero : number [zero] = 0 := rfl
    simp [Decimal.value, hzero, signed, Fits]
  · refine ⟨_, htrim, rfl, ⟨hne, hd, Or.inr ⟨hhead, hlast⟩⟩, ?_⟩
    have hdvd : ¬ (10 : Int) ∣ signed sign (number r) := by
      rw [dvd_signed_iff]
      exact not_dvd_number hd hne hlast
    have hshift : scaled 10 (signed sign ((number r * 10 ^ trail : Nat) : Int)) k =
        scaled 10 (signed sign (number r)) (k + trail) := by
      rw [← scaled_shift (by decide)]
      congr 1
      simp only [signed]
      push_cast
      ring
    have hnext : exp + BitVec.ofNat 64 trail = BitVec.ofInt 64 (k + trail) := by
      rw [hexp, BitVec.ofInt_add]
      rfl
    have hne0 : signed sign (number r) ≠ 0 := fun h => hdvd (h ▸ dvd_zero 10)
    rw [hshift, fits_iff hdvd, Decimal.value, hnext, scaled_right_inj (by decide) hne0]

theorem trim_digits_iff {sign : Nat} {exp : BitVec 64} {s : List Byte} {d : Decimal}
    (h : trim sign exp s = .ok d) : Digits d.digits ↔ Digits s := by
  by_cases hs : s = []
  · rw [trim, if_pos hs] at h
    cases h
  · obtain ⟨r, lead, trail, rfl, hcases⟩ := trim_spec sign exp hs
    rw [digits_padded]
    rcases hcases with ⟨_, htrim⟩ | ⟨_, _, _, htrim⟩ <;>
    · rw [h] at htrim
      cases htrim
      exact Iff.rfl

/-- An exponent that wraps gives no other number of reasonable size either. -/
theorem wrapped_value {n w k : Int} {t L : Nat} (hn : ¬ (10 : Int) ∣ n) (ht : t < 2 ^ 63)
    (hL : L < 2 ^ 63) (hw : w.natAbs < 10 ^ L)
    (h : scaled 10 n (BitVec.ofInt 64 (k + t)).toInt = scaled 10 w k) :
    (BitVec.ofInt 64 (k + t)).toInt = k + t ∧ n * 10 ^ t = w := by
  have hwrap : ∃ j : Int, (BitVec.ofInt 64 (k + t)).toInt = k + t + j * 2 ^ 64 := by
    refine ⟨-Int.bdiv (k + t) (2 ^ 64), ?_⟩
    rw [BitVec.toInt_ofInt, Int.bmod_eq_self_sub_mul_bdiv]
    push_cast
    ring
  obtain ⟨j, hj⟩ := hwrap
  rw [hj] at h ⊢
  have hle : k ≤ k + t + j * 2 ^ 64 := by
    by_contra hlt
    exact hn (dvd_of_scaled_eq (by decide) h (by omega))
  obtain ⟨e, he⟩ := Int.eq_ofNat_of_zero_le (show 0 ≤ k + t + j * 2 ^ 64 - k by omega)
  have hexp : k + t + j * 2 ^ 64 = k + (e : Int) := by omega
  rw [hexp, ← scaled_shift (by decide), scaled_left_inj (by decide)] at h
  have hbound : e < L := by
    by_contra hge
    have hne : n ≠ 0 := fun h0 => hn (h0 ▸ dvd_zero 10)
    have hpow : (10 : Nat) ^ L ≤ 10 ^ e := Nat.pow_le_pow_right (by decide) (by omega)
    have habs : w.natAbs = n.natAbs * 10 ^ e := by
      rw [← h, Int.natAbs_mul, Int.natAbs_pow]
      rfl
    have hone : 1 ≤ n.natAbs := Int.natAbs_pos.mpr hne
    have hmul : 1 * 10 ^ e ≤ n.natAbs * 10 ^ e := Nat.mul_le_mul_right _ hone
    omega
  have hzero : j = 0 := by omega
  have het : e = t := by omega
  subst hzero het
  exact ⟨by ring, h⟩

/-- The value is `n * 10 ^ k` if that fits, and no other of reasonable size in any case. -/
def Decimal.Denotes (d : Decimal) (n k : Int) : Prop :=
  ∀ (w : Int) (L : Nat), L < 2 ^ 63 → w.natAbs < 10 ^ L →
    (d.value = scaled 10 w k ↔ n = w ∧ Fits (scaled 10 w k))

theorem trim_denotes (sign : Nat) {exp : BitVec 64} {k : Int} (hexp : exp = BitVec.ofInt 64 k)
    {s : List Byte} (hs : s ≠ []) (hd : Digits s) (hlen : s.length < 2 ^ 63) :
    ∃ d, trim sign exp s = .ok d ∧ d.sign = sign ∧ d.Canonical ∧
      d.Denotes (signed sign (number s)) k := by
  obtain ⟨d, htrim, hsign, hcanonical, hvalue⟩ := trim_exact sign hexp hs hd
  refine ⟨d, htrim, hsign, hcanonical, ?_⟩
  intro w L hL hw
  constructor
  · intro h
    suffices hnum : signed sign (number s) = w by
      rw [hnum] at hvalue
      exact ⟨hnum, hvalue.mp h⟩
    obtain ⟨r, lead, trail, rfl, hcases⟩ := trim_spec sign exp hs
    rw [digits_padded] at hd
    rw [number_padded]
    rcases hcases with ⟨rfl, htrim'⟩ | ⟨hne, _, hlast, htrim'⟩
    · rw [htrim] at htrim'
      cases htrim'
      have hzero : number [zero] = 0 := rfl
      rw [Decimal.value, hzero, Nat.cast_zero, signed, mul_zero, scaled_zero, eq_comm,
        scaled_eq_zero_iff (by decide)] at h
      rw [hzero, h]
      simp [signed]
    · rw [htrim] at htrim'
      cases htrim'
      have hdvd : ¬ (10 : Int) ∣ signed sign (number r) := by
        rw [dvd_signed_iff]
        exact not_dvd_number hd hne hlast
      have hnext : exp + BitVec.ofNat 64 trail = BitVec.ofInt 64 (k + trail) := by
        rw [hexp, BitVec.ofInt_add]
        rfl
      simp only [List.length_append, List.length_replicate] at hlen
      rw [Decimal.value, hnext] at h
      rw [← (wrapped_value hdvd (by omega) hL hw h).2]
      simp only [signed]
      push_cast
      ring
  · rintro ⟨hnum, hfits⟩
    rw [hnum] at hvalue
    exact hvalue.mpr hfits

theorem Decimal.Denotes.exact {d : Decimal} {n k : Int} (h : d.Denotes n k) {L : Nat}
    (hL : L < 2 ^ 63) (hn : n.natAbs < 10 ^ L) : d.value = scaled 10 n k ↔ Fits (scaled 10 n k) := by
  rw [h n L hL hn]
  simp

/-- Another sign is put to a result. -/
theorem Decimal.Denotes.resign {d : Decimal} {n k : Int} (h : d.Denotes n k) (hsign : d.sign = 0)
    (sign : Nat) : Decimal.Denotes { d with sign := sign } (signed sign n) k := by
  intro w L hL hw
  have hvalue : d.value = scaled 10 (number d.digits) d.exp.toInt := by
    rw [Decimal.value, hsign, signed_zero_left]
  rcases neg_one_pow_eq_or Int sign with hpow | hpow
  · rw [Decimal.value, signed, signed, hpow, one_mul, one_mul, ← hvalue]
    exact h w L hL hw
  · have hneg := h (-w) L hL (by rwa [Int.natAbs_neg])
    have hfits : Fits (scaled 10 (-w) k) ↔ Fits (scaled 10 w k) := by
      rw [← fits_signed_iff sign, signed, hpow]
      simp
    rw [hfits, scaled_neg, hvalue] at hneg
    rw [Decimal.value, signed, signed, hpow, neg_one_mul, neg_one_mul, scaled_neg, neg_eq_iff_eq_neg,
      hneg, neg_eq_iff_eq_neg]

end FreeVMS.Rtl.Num
