import FreeVMS.Rtl.Bytes

/-!
# Multi-precision addition and subtraction

`lib_addx.c` and `lib_subx.c`: the sum and the difference of two numbers of any number of longwords,
byte by byte, into a place that may be that of an operand.
-/

namespace FreeVMS.Rtl

open Lib.Digits

/-- `SS$_INTOVF` -/
def intOvf : Nat := 0x047C

/-- The number of bytes: 8 without `lenadd`, else four for each longword. -/
def byteCount : Option Nat → Nat
  | none => 8
  | some longwords => longwords * 4

/-- The loop of both routines: each round reads a byte of each operand, stores a byte and keeps a
    carry. -/
def sweep (round : BitVec 64 → Byte × Byte → Byte × BitVec 64) (m : Memory) (a b c : Nat)
    (carry : BitVec 64) : Nat → Memory
  | 0 => m
  | count + 1 =>
      let (byte, carry) := round carry (m a, m b)
      sweep round (Function.update m c byte) (a + 1) (b + 1) (c + 1) carry count

/-- `carry = *a++ + (carry + *b++); *c = carry; carry = carry >> 8;` -/
def addByte (carry : BitVec 64) (ab : Byte × Byte) : Byte × BitVec 64 :=
  let carry := ab.1.setWidth 64 + (carry + ab.2.setWidth 64)
  (carry.setWidth 8, carry >>> 8)

/-- `carry = *ant++ - (carry + *ee++); *res++ = carry; carry = (carry >> 8) & 1;` -/
def subByte (carry : BitVec 64) (ab : Byte × Byte) : Byte × BitVec 64 :=
  let carry := ab.1.setWidth 64 - (carry + ab.2.setWidth 64)
  (carry.setWidth 8, (carry >>> 8) &&& 1)

/-- `lib$addx`: the status and the memory.  The third test of the source compares `sign_b`
    twice. -/
def libAddx (m : Memory) (addend addaug result : Nat) (lenadd : Option Nat) : Nat × Memory :=
  let count := byteCount lenadd
  let signA := m (addend + count - 1) >>> 7
  let signB := m (addaug + count - 1) >>> 7
  let m := sweep addByte m addend addaug result 0 count
  let signResult := m (result + count - 1) >>> 7
  let status :=
    if signA = 1 ∧ signB = 1 ∧ signResult = 0 then intOvf
    else if signB = 0 ∧ signB = 0 ∧ signResult = 1 then intOvf
    else normal
  (status, m)

/-- `lib$subx` -/
def libSubx (m : Memory) (subant subee result : Nat) (lenadd : Option Nat) : Nat × Memory :=
  (normal, sweep subByte m subant subee result 0 (byteCount lenadd))

/-! ### What the loop stores -/

/-- The result does not begin inside the operand, but may begin with it. -/
def Clear (result operand n : Nat) : Prop := result ≤ operand ∨ operand + n ≤ result

theorem Clear.next {c a n : Nat} (h : Clear c a (n + 1)) : Clear (c + 1) (a + 1) n := by
  simp only [Clear] at h ⊢
  omega

/-- The first byte that is stored is not read again. -/
theorem Clear.store {c a n : Nat} (h : Clear c a (n + 1)) (m : Memory) (byte : Byte) :
    bytesAt (Function.update m c byte) (a + 1) n = bytesAt m (a + 1) n := by
  apply bytesAt_congr
  intro i hi
  apply Function.update_of_ne
  simp only [Clear] at h
  omega

section Sweep

variable (round : BitVec 64 → Byte × Byte → Byte × BitVec 64)

theorem sweep_succ (m : Memory) (a b c : Nat) (carry : BitVec 64) (count : Nat) :
    sweep round m a b c carry (count + 1) =
      sweep round (Function.update m c (round carry (m a, m b)).1) (a + 1) (b + 1) (c + 1)
        (round carry (m a, m b)).2 count := rfl

/-- The loop changes nothing but the result. -/
theorem sweep_frame (m : Memory) (a b c : Nat) (carry : BitVec 64) (count : Nat) {p : Nat}
    (hp : p < c ∨ c + count ≤ p) : sweep round m a b c carry count p = m p := by
  induction count generalizing m a b c carry with
  | zero => rfl
  | succ count ih =>
    rw [sweep_succ, ih]
    · apply Function.update_of_ne
      omega
    · omega

/-- The result is that of an upward pass over the operands as they were. -/
theorem sweep_bytes (m : Memory) {a b c : Nat} (carry : BitVec 64) {count : Nat}
    (ha : Clear c a count) (hb : Clear c b count) :
    bytesAt (sweep round m a b c carry count) c count =
      (ripple round carry ((bytesAt m a count).zip (bytesAt m b count))).1 := by
  induction count generalizing m a b c carry with
  | zero => rfl
  | succ count ih =>
    have hhead : sweep round m a b c carry (count + 1) c = (round carry (m a, m b)).1 := by
      rw [sweep_succ, sweep_frame round _ _ _ _ _ _ (Or.inl (Nat.lt_succ_self c))]
      exact Function.update_self c _ m
    have htail := ih (Function.update m c (round carry (m a, m b)).1)
      (round carry (m a, m b)).2 ha.next hb.next
    rw [ha.store, hb.store] at htail
    rw [bytesAt_succ, hhead, sweep_succ, htail, bytesAt_succ m a, bytesAt_succ m b, List.zip_cons_cons,
      ripple_cons]

end Sweep

theorem zip_values (m : Memory) (a b n : Nat) :
    valueOf 256 (fun ab : Byte × Byte => byteValue ab.1) ((bytesAt m a n).zip (bytesAt m b n)) =
        numberAt m a n ∧
      valueOf 256 (fun ab : Byte × Byte => byteValue ab.2) ((bytesAt m a n).zip (bytesAt m b n)) =
        numberAt m b n := by
  have hfst : ((bytesAt m a n).zip (bytesAt m b n)).map Prod.fst = bytesAt m a n :=
    List.map_fst_zip (by simp)
  have hsnd : ((bytesAt m a n).zip (bytesAt m b n)).map Prod.snd = bytesAt m b n :=
    List.map_snd_zip (by simp)
  constructor
  · rw [← valueOf_map 256 byteValue Prod.fst, hfst]
    rfl
  · rw [← valueOf_map 256 byteValue Prod.snd, hsnd]
    rfl

/-! ### Sum and difference -/

theorem addByte_value {carry : BitVec 64} (hcarry : carry.toNat ≤ 1) (ab : Byte × Byte) :
    (addByte carry ab).2.toNat ≤ 1 ∧
      byteValue (addByte carry ab).1 + 256 * ((addByte carry ab).2.toNat : Int) =
        byteValue ab.1 + byteValue ab.2 + carry.toNat := by
  have ha := ab.1.isLt
  have hb := ab.2.isLt
  have hsum : (ab.1.setWidth 64 + (carry + ab.2.setWidth 64)).toNat =
      ab.1.toNat + (carry.toNat + ab.2.toNat) := by
    simp only [BitVec.toNat_add, BitVec.toNat_setWidth]
    omega
  simp only [addByte, byteValue, BitVec.toNat_setWidth, BitVec.toNat_ushiftRight, hsum,
    Nat.shiftRight_eq_div_pow]
  omega

theorem subByte_value {carry : BitVec 64} (hcarry : carry.toNat ≤ 1) (ab : Byte × Byte) :
    (subByte carry ab).2.toNat ≤ 1 ∧
      byteValue (subByte carry ab).1 + 256 * -((subByte carry ab).2.toNat : Int) =
        byteValue ab.1 - byteValue ab.2 + -(carry.toNat : Int) := by
  have ha := ab.1.isLt
  have hb := ab.2.isLt
  have hdiff : (ab.1.setWidth 64 - (carry + ab.2.setWidth 64)).toNat =
      (2 ^ 64 + ab.1.toNat - (carry.toNat + ab.2.toNat)) % 2 ^ 64 := by
    simp only [BitVec.toNat_sub, BitVec.toNat_add, BitVec.toNat_setWidth]
    omega
  have hone : (1 : BitVec 64).toNat = 1 := rfl
  simp only [subByte, byteValue, BitVec.toNat_setWidth, BitVec.toNat_and,
    BitVec.toNat_ushiftRight, hdiff, Nat.shiftRight_eq_div_pow, hone, Nat.and_one_is_mod]
  omega

theorem sweep_add {m : Memory} {a b c n : Nat} (ha : Clear c a n) (hb : Clear c b n) :
    numberAt (sweep addByte m a b c 0 n) c n =
      (numberAt m a n + numberAt m b n) % 256 ^ n := by
  obtain ⟨hfst, hsnd⟩ := zip_values m a b n
  have hvalue := ripple_value (fun carry : BitVec 64 => carry.toNat ≤ 1)
    (fun carry => (carry.toNat : Int)) (fun _ ab h => (addByte_value h ab).1)
    (fun _ ab h => (addByte_value h ab).2) 0 (by decide)
    ((bytesAt m a n).zip (bytesAt m b n))
  rw [valueOf_add, hfst, hsnd, ← sweep_bytes addByte m 0 ha hb] at hvalue
  apply eq_emod_of_carry (numberAt_nonneg _ _ _) (numberAt_lt _ _ _)
  simpa [numberAt, bytesValue] using hvalue

theorem sweep_sub {m : Memory} {a b c n : Nat} (ha : Clear c a n) (hb : Clear c b n) :
    numberAt (sweep subByte m a b c 0 n) c n =
      (numberAt m a n - numberAt m b n) % 256 ^ n := by
  obtain ⟨hfst, hsnd⟩ := zip_values m a b n
  have hvalue := ripple_value (fun carry : BitVec 64 => carry.toNat ≤ 1)
    (fun carry => -(carry.toNat : Int)) (fun _ ab h => (subByte_value h ab).1)
    (fun _ ab h => (subByte_value h ab).2) 0 (by decide)
    ((bytesAt m a n).zip (bytesAt m b n))
  rw [valueOf_sub, hfst, hsnd, ← sweep_bytes subByte m 0 ha hb] at hvalue
  apply eq_emod_of_carry (k := -_) (numberAt_nonneg _ _ _) (numberAt_lt _ _ _)
  simpa [numberAt, bytesValue] using hvalue

/-! ### The status of the sum -/

/-- The top bit of a number is its sign. -/
theorem sign_bit (m : Memory) (p : Nat) {n : Nat} (hn : 0 < n) :
    (m (p + n - 1) >>> 7 = 1 ↔ signedAt m p n < 0) ∧
      (m (p + n - 1) >>> 7 = 0 ↔ 0 ≤ signedAt m p n) := by
  obtain ⟨k, rfl⟩ : ∃ k, n = k + 1 := ⟨n - 1, by omega⟩
  rw [← Nat.add_assoc, Nat.add_sub_cancel]
  have hbyte : (m (p + k) >>> 7).toNat = (m (p + k)).toNat / 128 := by
    rw [BitVec.toNat_ushiftRight, Nat.shiftRight_eq_div_pow]
  have hlt := (m (p + k)).isLt
  have hone : (m (p + k) >>> 7 = 1) ↔ 128 ≤ (m (p + k)).toNat := by
    rw [← BitVec.toNat_inj, hbyte, show (1 : Byte).toNat = 1 from rfl]
    omega
  have hzero : (m (p + k) >>> 7 = 0) ↔ (m (p + k)).toNat < 128 := by
    rw [← BitVec.toNat_inj, hbyte, show (0 : Byte).toNat = 0 from rfl]
    omega
  have hlow0 := numberAt_nonneg m p k
  have hlow := numberAt_lt m p k
  have hpow : (0 : Int) < 256 ^ k := by positivity
  rw [hone, hzero, signedAt, numberAt_snoc, pow_succ, byteValue]
  generalize (m (p + k)).toNat = byte at hlt ⊢
  by_cases hbig : 128 ≤ byte
  · have htop : (256 : Int) ^ k * 128 ≤ 256 ^ k * byte :=
      mul_le_mul_of_nonneg_left (by omega) hpow.le
    have hend : (256 : Int) ^ k * byte ≤ 256 ^ k * 255 :=
      mul_le_mul_of_nonneg_left (by omega) hpow.le
    rw [if_neg (by omega)]
    omega
  · have htop : (256 : Int) ^ k * byte ≤ 256 ^ k * 127 :=
      mul_le_mul_of_nonneg_left (by omega) hpow.le
    have hbot : (0 : Int) ≤ 256 ^ k * byte := mul_nonneg hpow.le (Int.natCast_nonneg _)
    rw [if_pos (by omega)]
    omega

/-- `x` has a two's complement representation in `n` longwords. -/
def Representable (n : Nat) (x : Int) : Prop := -2 ^ (32 * n) ≤ 2 * x ∧ 2 * x < 2 ^ (32 * n)

instance (n : Nat) (x : Int) : Decidable (Representable n x) :=
  inferInstanceAs (Decidable (_ ∧ _))

theorem longwords_pow (n : Nat) : (256 : Int) ^ (n * 4) = 2 ^ (32 * n) := by
  rw [show (256 : Int) = 2 ^ 8 from rfl, ← pow_mul]
  congr 1
  omega

/-- A remainder of a sum of two remainders. -/
theorem add_emod_cases {x y bound : Int} (hx : 0 ≤ x ∧ x < bound) (hy : 0 ≤ y ∧ y < bound) :
    (x + y < bound ∧ (x + y) % bound = x + y) ∨
      (bound ≤ x + y ∧ (x + y) % bound = x + y - bound) := by
  by_cases h : x + y < bound
  · exact Or.inl ⟨h, Int.emod_eq_of_lt (by omega) h⟩
  · refine Or.inr ⟨by omega, ?_⟩
    rw [← Int.sub_emod_right, Int.emod_eq_of_lt (by omega) (by omega)]

/-- The case that the third test of `lib$addx` takes for an overflow. -/
def MixedNegative (m : Memory) (a b n : Nat) : Prop :=
  signedAt m a n < 0 ∧ 0 ≤ signedAt m b n ∧ signedAt m a n + signedAt m b n < 0

instance (m : Memory) (a b n : Nat) : Decidable (MixedNegative m a b n) :=
  inferInstanceAs (Decidable (_ ∧ _))

/-- The status of `lib$addx`, by the numbers it adds. -/
theorem libAddx_status {m : Memory} {a b c n : Nat} {lenadd : Option Nat}
    (hn : n = byteCount lenadd) (hpos : 0 < n) (ha : Clear c a n) (hb : Clear c b n) :
    (libAddx m a b c lenadd).1 =
      if 256 ^ n ≤ 2 * (signedAt m a n + signedAt m b n) ∨
          2 * (signedAt m a n + signedAt m b n) < -256 ^ n ∨ MixedNegative m a b n
      then intOvf else normal := by
  obtain ⟨hsumOne, hsumZero⟩ := sign_bit (sweep addByte m a b c 0 n) c hpos
  obtain ⟨haOne, haZero⟩ := sign_bit m a hpos
  obtain ⟨hbOne, hbZero⟩ := sign_bit m b hpos
  have hsum := sweep_add (m := m) ha hb
  have hcases := add_emod_cases ⟨numberAt_nonneg m a n, numberAt_lt m a n⟩
    ⟨numberAt_nonneg m b n, numberAt_lt m b n⟩
  have ha0 := numberAt_nonneg m a n
  have hb0 := numberAt_nonneg m b n
  have haw := numberAt_lt m a n
  have hbw := numberAt_lt m b n
  simp only [libAddx, ← hn, haOne, hbOne, hbZero, hsumOne, hsumZero, MixedNegative]
  simp only [signedAt, hsum]
  grind

/-! ### What is promised of the two routines -/

/-- What `lib$addx` and `lib$subx` are to do with the numbers of `n` longwords at `a` and `b`, and
    a result at `c`. -/
structure MultiwordExact (m : Memory) (a b c n : Nat) : Prop where
  sum : numberAt (libAddx m a b c (some n)).2 c (n * 4) =
    (numberAt m a (n * 4) + numberAt m b (n * 4)) % 2 ^ (32 * n)
  difference : numberAt (libSubx m a b c (some n)).2 c (n * 4) =
    (numberAt m a (n * 4) - numberAt m b (n * 4)) % 2 ^ (32 * n)
  /-- Of the sum and a copy `e` of the second number, into any place `d`. -/
  back : ∀ e d, numberAt (libAddx m a b c (some n)).2 e (n * 4) = numberAt m b (n * 4) →
    Clear d c (n * 4) → Clear d e (n * 4) →
    numberAt (libSubx (libAddx m a b c (some n)).2 c e d (some n)).2 d (n * 4) =
      numberAt m a (n * 4)
  status : (libAddx m a b c (some n)).1 =
    if Representable n (signedAt m a (n * 4) + signedAt m b (n * 4)) then normal else intOvf

theorem libAddx_back {m : Memory} {a b c e d n : Nat} (ha : Clear c a (n * 4))
    (hb : Clear c b (n * 4))
    (he : numberAt (libAddx m a b c (some n)).2 e (n * 4) = numberAt m b (n * 4))
    (hdc : Clear d c (n * 4)) (hde : Clear d e (n * 4)) :
    numberAt (libSubx (libAddx m a b c (some n)).2 c e d (some n)).2 d (n * 4) =
      numberAt m a (n * 4) := by
  have hsum : numberAt (libAddx m a b c (some n)).2 c (n * 4) =
      (numberAt m a (n * 4) + numberAt m b (n * 4)) % 256 ^ (n * 4) := sweep_add ha hb
  have hback : numberAt (libSubx (libAddx m a b c (some n)).2 c e d (some n)).2 d (n * 4) =
      (numberAt (libAddx m a b c (some n)).2 c (n * 4) -
        numberAt (libAddx m a b c (some n)).2 e (n * 4)) % 256 ^ (n * 4) := sweep_sub hdc hde
  rw [hback, hsum, he, Int.emod_sub_emod, Int.add_sub_cancel]
  exact Int.emod_eq_of_lt (numberAt_nonneg _ _ _) (numberAt_lt _ _ _)

/-- **Sums and differences of any length.**  Into any place that does not begin inside an operand,
    `lib$addx` and `lib$subx` store what they should, and the status of `lib$addx` is right unless
    a negative number and one that is not have a negative sum. -/
theorem multiword_exact (m : Memory) (a b c n : Nat) (hn : 1 ≤ n) (ha : Clear c a (n * 4))
    (hb : Clear c b (n * 4)) :
    MultiwordExact m a b c n ↔ ¬ MixedNegative m a b (n * 4) := by
  have hcount : n * 4 = byteCount (some n) := rfl
  have hstatus := libAddx_status (m := m) hcount (by omega) ha hb
  rw [longwords_pow] at hstatus
  have hpow : (0 : Int) < 2 ^ (32 * n) := by positivity
  have hneq : normal ≠ intOvf := by decide
  constructor
  · intro h hmixed
    have hexact := h.status
    rw [hstatus, if_pos (Or.inr (Or.inr hmixed)), if_pos] at hexact
    · exact hneq hexact.symm
    · have ha0 := numberAt_lt m a (n * 4)
      have ha1 := numberAt_nonneg m a (n * 4)
      rw [longwords_pow] at ha0
      simp only [MixedNegative, Representable, signedAt, longwords_pow] at hmixed ⊢
      grind
  · intro hmixed
    refine ⟨?_, ?_, fun e d he hdc hde => libAddx_back ha hb he hdc hde, ?_⟩
    · rw [← longwords_pow]
      exact sweep_add ha hb
    · rw [← longwords_pow]
      exact sweep_sub ha hb
    · simp only [hstatus, Representable]
      grind

/-- Two longwords next to each other, -3 and 1, and zeros behind them. -/
def minusThreeAndOne : Memory := fun p => ([0xFD, 0xFF, 0xFF, 0xFF, 1] : List Byte).getD p 0

theorem multiword_exact_three_and_one : MultiwordExact minusThreeAndOne 4 4 8 1 :=
  (multiword_exact minusThreeAndOne 4 4 8 1 (by decide) (by simp [Clear]) (by simp [Clear])).mpr
    (by decide +kernel)

/-- The sum of -3 and 1 is in range, and `lib$addx` reports an overflow. -/
theorem addx_overflow_reported : ¬ ∀ (m : Memory) (a b c n : Nat), 1 ≤ n →
    Clear c a (n * 4) → Clear c b (n * 4) → MultiwordExact m a b c n := by
  intro h
  have hstatus := (h minusThreeAndOne 0 4 8 1 (by decide) (by simp [Clear])
    (by simp [Clear])).status
  revert hstatus
  decide +kernel

end FreeVMS.Rtl
