import FreeVMS.Rtl.Quadword

/-!
# Multiplication of delta times

`lib_mult_delta_time.c`: the bytes of a delta time are multiplied one after the other with a factor
that may be as large as a `long`, and the carry is an `unsigned`.
-/

namespace FreeVMS.Rtl

open Lib.Digits

/-- `carry += *ptr * factor; *ptr++ = carry; carry = (carry >> 8);` -/
def multByte (factor : BitVec 64) (carry : BitVec 32) (b : Byte) : Byte × BitVec 32 :=
  let carry := (carry.setWidth 64 + b.setWidth 64 * factor).setWidth 32
  (carry.setWidth 8, carry >>> 8)

/-- `if (factor < 0) factor = -factor;` -/
def absoluteFactor (multiple : BitVec 64) : BitVec 64 :=
  if multiple.slt 0 then -multiple else multiple

/-- `lib$mult_delta_time` with `*timadr`: the status and the new `*timadr`. -/
def libMultDeltaTime (multiple : BitVec 64) (timadr : Quad) : Nat × Quad :=
  if timadr.msb then
    (normal, ofTimeBytes (ripple (multByte (absoluteFactor multiple)) 0 (timeBytes timadr)).1)
  else (ivTime, timadr)

theorem absoluteFactor_toNat (multiple : BitVec 64) :
    (absoluteFactor multiple).toNat = multiple.toInt.natAbs := by
  have hlt := multiple.isLt
  have hint := BitVec.toInt_eq_toNat_cond multiple
  have hzero : (0 : BitVec 64).toInt = 0 := rfl
  rw [absoluteFactor, BitVec.slt_eq_decide, hzero]
  split at hint
  · have hnonneg : ¬ multiple.toInt < 0 := by omega
    rw [decide_eq_false hnonneg, if_neg Bool.false_ne_true]
    omega
  · have hneg : multiple.toInt < 0 := by omega
    rw [decide_eq_true hneg, if_pos rfl, BitVec.toNat_neg]
    omega

/-! ### What the carry loses -/

/-- The sum of a round, before it is cut to an `unsigned`. -/
def fullSum (factor carry : Nat) (b : Byte) : Nat := carry + b.toNat * factor

/-- How often 2^32 is cut off from the sums, round by round, for a factor below 2^32. -/
def lostParts (factor : Nat) : Nat → List Byte → List Int
  | _, [] => []
  | carry, b :: bs =>
      (fullSum factor carry b / 2 ^ 32 : Nat) ::
        lostParts factor (fullSum factor carry b % 2 ^ 32 / 256) bs

/-- Only the lower half of the factor counts. -/
theorem multByte_toNat (factor : BitVec 64) (carry : BitVec 32) (b : Byte) :
    (multByte factor carry b).1.toNat = fullSum (factor.toNat % 2 ^ 32) carry.toNat b % 256 ∧
      (multByte factor carry b).2.toNat =
        fullSum (factor.toNat % 2 ^ 32) carry.toNat b % 2 ^ 32 / 256 := by
  have hb := b.isLt
  have hc := carry.isLt
  have hmul : b.toNat * factor.toNat % 2 ^ 32 = b.toNat * (factor.toNat % 2 ^ 32) % 2 ^ 32 := by
    rw [Nat.mul_mod_mod]
  have hsum : ((carry.setWidth 64 + b.setWidth 64 * factor).setWidth 32).toNat =
      fullSum (factor.toNat % 2 ^ 32) carry.toNat b % 2 ^ 32 := by
    simp only [BitVec.toNat_setWidth, BitVec.toNat_add, BitVec.toNat_mul, fullSum]
    rw [Nat.mod_eq_of_lt (show carry.toNat < 2 ^ 64 by omega),
      Nat.mod_eq_of_lt (show b.toNat < 2 ^ 64 by omega)]
    omega
  simp only [multByte, BitVec.toNat_setWidth, BitVec.toNat_ushiftRight, Nat.shiftRight_eq_div_pow]
    at hsum ⊢
  rw [hsum]
  constructor
  · omega
  · rfl

theorem losses_eq (factor : BitVec 64) (carry : BitVec 32) (bs : List Byte) :
    losses (multByte factor)
        (fun carry b => ((fullSum (factor.toNat % 2 ^ 32) carry.toNat b / 2 ^ 32 : Nat) : Int))
        carry bs =
      lostParts (factor.toNat % 2 ^ 32) carry.toNat bs := by
  induction bs generalizing carry with
  | nil => rfl
  | cons b bs ih => rw [losses_cons, ih, lostParts, (multByte_toNat factor carry b).2]

/-- What a pass leaves and what it loses make up the product. -/
theorem mult_value (factor : BitVec 64) (bs : List Byte) :
    bytesValue (ripple (multByte factor) 0 bs).1 +
        256 ^ bs.length * ((ripple (multByte factor) 0 bs).2.toNat : Int) +
        2 ^ 32 * valueOf 256 id (lostParts (factor.toNat % 2 ^ 32) 0 bs) =
      bytesValue bs * (factor.toNat % 2 ^ 32 : Nat) := by
  have hround : ∀ (carry : BitVec 32) (b : Byte),
      byteValue (multByte factor carry b).1 + 256 * ((multByte factor carry b).2.toNat : Int) +
          2 ^ 32 * ((fullSum (factor.toNat % 2 ^ 32) carry.toNat b / 2 ^ 32 : Nat) : Int) =
        byteValue b * (factor.toNat % 2 ^ 32 : Nat) + (carry.toNat : Int) := by
    intro carry b
    obtain ⟨hout, hcarry⟩ := multByte_toNat factor carry b
    have hsum : ((fullSum (factor.toNat % 2 ^ 32) carry.toNat b : Nat) : Int) =
        byteValue b * (factor.toNat % 2 ^ 32 : Nat) + carry.toNat := by
      simp only [fullSum, byteValue]
      push_cast
      ring
    rw [← hsum, byteValue, hout, hcarry]
    omega
  have hvalue := ripple_value_losses (fun carry : BitVec 32 => (carry.toNat : Int)) hround 0 bs
  have hzero : ((0 : BitVec 32).toNat : Int) = 0 := rfl
  rw [losses_eq, valueOf_mul, hzero, add_zero] at hvalue
  exact hvalue

theorem length_lostParts (factor carry : Nat) (bs : List Byte) :
    (lostParts factor carry bs).length = bs.length := by
  induction bs generalizing carry with
  | nil => rfl
  | cons b bs ih => rw [lostParts, List.length_cons, ih, List.length_cons]

theorem take_lostParts (factor carry n : Nat) (bs : List Byte) :
    (lostParts factor carry bs).take n = lostParts factor carry (bs.take n) := by
  induction bs generalizing carry n with
  | nil => simp [lostParts]
  | cons b bs ih =>
    cases n with
    | zero => rfl
    | succ n => rw [lostParts, List.take_succ_cons, ih, List.take_succ_cons, lostParts]

/-- What the carry loses that can be seen in a quadword, in units of 2^32: the parts of the first
    four rounds. -/
def visibleLoss (factor : Nat) (timadr : Quad) : Int :=
  valueOf 256 id (lostParts (factor % 2 ^ 32) 0 ((timeBytes timadr).take 4))

/-- `*timadr` becomes the product of its delta time and the absolute factor. -/
def MultipliesExactly (multiple : BitVec 64) (timadr : Quad) : Prop :=
  (libMultDeltaTime multiple timadr).1 = normal ∧
    (libMultDeltaTime multiple timadr).2.toInt = multiple.toInt.natAbs * timadr.toInt

/-- The delta time in `*timadr` afterwards, up to 2^64. -/
theorem mult_delta_value (factor : BitVec 64) (timadr : Quad) :
    ∃ k : Int, ((ofTimeBytes (ripple (multByte factor) 0 (timeBytes timadr)).1).toNat : Int) =
      timadr.toNat * (factor.toNat % 2 ^ 32 : Nat) - 2 ^ 32 * visibleLoss factor.toNat timadr +
        2 ^ 64 * k := by
  have hvalue := mult_value factor (timeBytes timadr)
  have hsplit : valueOf 256 id (lostParts (factor.toNat % 2 ^ 32) 0 (timeBytes timadr)) =
      visibleLoss factor.toNat timadr + 256 ^ 4 *
        valueOf 256 id ((lostParts (factor.toNat % 2 ^ 32) 0 (timeBytes timadr)).drop 4) := by
    rw [visibleLoss, ← take_lostParts]
    conv_lhs => rw [← List.take_append_drop 4 (lostParts _ 0 _), valueOf_append]
    rfl
  rw [timeBytes_value, hsplit] at hvalue
  have hlen : (timeBytes timadr).length = 8 := rfl
  rw [hlen] at hvalue
  rw [ofTimeBytes_value, Int.emod_def]
  refine ⟨-((ripple (multByte factor) 0 (timeBytes timadr)).2.toNat : Int) -
    valueOf 256 id ((lostParts (factor.toNat % 2 ^ 32) 0 (timeBytes timadr)).drop 4) -
    bytesValue (ripple (multByte factor) 0 (timeBytes timadr)).1 / 2 ^ 64, ?_⟩
  linear_combination hvalue

theorem multiplies_exactly_iff (multiple : BitVec 64) (timadr : Quad) (hdelta : timadr.toInt < 0)
    (hbound : multiple.toInt.natAbs * timadr.toInt.natAbs ≤ 2 ^ 63) :
    MultipliesExactly multiple timadr ↔
      ((multiple.toInt.natAbs / 2 ^ 32 * timadr.toNat : Nat) +
        visibleLoss multiple.toInt.natAbs timadr) % 2 ^ 32 = 0 := by
  have hmsb : timadr.msb = true := BitVec.msb_eq_toInt.trans (decide_eq_true hdelta)
  obtain ⟨k, hvalue⟩ := mult_delta_value (absoluteFactor multiple) timadr
  rw [absoluteFactor_toNat] at hvalue
  rw [MultipliesExactly, libMultDeltaTime, if_pos hmsb, eq_self_iff_true, true_and]
  generalize ofTimeBytes (ripple (multByte (absoluteFactor multiple)) 0 (timeBytes timadr)).1 =
    result at hvalue ⊢
  generalize multiple.toInt.natAbs = factor at hbound hvalue ⊢
  generalize visibleLoss factor timadr = loss at hvalue ⊢
  have hd : timadr.toInt = timadr.toNat - 2 ^ 64 := by
    have hint := BitVec.toInt_eq_toNat_cond timadr
    split at hint <;> omega
  -- the product as the two halves of the factor give it
  have hhalves : (factor : Int) * timadr.toInt =
      timadr.toNat * (factor % 2 ^ 32 : Nat) + 2 ^ 32 * (factor / 2 ^ 32 * timadr.toNat : Nat) -
        2 ^ 64 * factor := by
    have hdiv : (factor : Int) = (factor % 2 ^ 32 : Nat) + 2 ^ 32 * (factor / 2 ^ 32 : Nat) := by
      omega
    rw [hd]
    push_cast at hdiv ⊢
    linear_combination (timadr.toNat : Int) * hdiv
  have hrange : -2 ^ 63 ≤ (factor : Int) * timadr.toInt ∧ (factor : Int) * timadr.toInt ≤ 0 := by
    have habs : (factor : Int) * timadr.toInt = -((factor * timadr.toInt.natAbs : Nat) : Int) := by
      have hneg : timadr.toInt = -(timadr.toInt.natAbs : Int) := by omega
      conv_lhs => rw [hneg]
      push_cast
      ring
    omega
  have hresult := BitVec.toInt_eq_toNat_cond result
  have hlt := result.isLt
  generalize (factor : Int) * timadr.toInt = product at hhalves hrange ⊢
  generalize ((factor / 2 ^ 32 * timadr.toNat : Nat) : Int) = upper at hhalves ⊢
  generalize (timadr.toNat : Int) * (factor % 2 ^ 32 : Nat) = lower at hhalves hvalue
  dsimp only
  split at hresult <;> constructor <;> intro h <;> omega

/-- A round that loses nothing carries on with the whole sum. -/
theorem lostParts_eq_zero_iff (factor carry : Nat) (bs : List Byte) :
    (∀ x ∈ lostParts factor carry bs, x = 0) ↔
      ∀ i < bs.length, carry + bytesValue (bs.take (i + 1)) * factor < 2 ^ 32 * 256 ^ i := by
  induction bs generalizing carry with
  | nil => simp [lostParts]
  | cons b bs ih =>
    have hfirst : bytesValue ((b :: bs).take 1) = b.toNat := by simp [bytesValue, byteValue]
    have hnext : ∀ i, bytesValue ((b :: bs).take (i + 1 + 1)) =
        b.toNat + 256 * bytesValue (bs.take (i + 1)) := fun i => rfl
    have hsum : ((fullSum factor carry b : Nat) : Int) = carry + b.toNat * factor := by
      simp only [fullSum]
      push_cast
      rfl
    rw [lostParts, List.forall_mem_cons, ih]
    constructor
    · rintro ⟨hzero, hrest⟩ i hi
      have hlt : fullSum factor carry b < 2 ^ 32 := by omega
      cases i with
      | zero =>
        rw [hfirst]
        omega
      | succ i =>
        have hi' := hrest i (by simpa using hi)
        rw [Nat.mod_eq_of_lt hlt] at hi'
        rw [hnext, pow_succ (256 : Int) i]
        have hexpand : (carry : Int) + (b.toNat + 256 * bytesValue (bs.take (i + 1))) * factor =
            fullSum factor carry b + 256 * (bytesValue (bs.take (i + 1)) * factor) := by
          rw [hsum]
          ring
        rw [hexpand]
        generalize bytesValue (bs.take (i + 1)) * (factor : Int) = rest at hi' ⊢
        generalize (256 : Int) ^ i = weight at hi' ⊢
        omega
    · intro h
      have hlt : fullSum factor carry b < 2 ^ 32 := by
        have h0 := h 0 (Nat.succ_pos _)
        rw [hfirst] at h0
        omega
      refine ⟨by omega, ?_⟩
      intro i hi
      have hi' := h (i + 1) (by simpa using hi)
      have hexpand : (carry : Int) + (b.toNat + 256 * bytesValue (bs.take (i + 1))) * factor =
          fullSum factor carry b + 256 * (bytesValue (bs.take (i + 1)) * factor) := by
        rw [hsum]
        ring
      rw [hnext, hexpand, pow_succ (256 : Int) i] at hi'
      rw [Nat.mod_eq_of_lt hlt]
      generalize bytesValue (bs.take (i + 1)) * (factor : Int) = rest at hi' ⊢
      generalize (256 : Int) ^ i = weight at hi' ⊢
      omega

theorem lostParts_bound {factor carry : Nat} (hfactor : factor < 2 ^ 32) (hcarry : carry < 2 ^ 24)
    (bs : List Byte) : ∀ x ∈ lostParts factor carry bs, 0 ≤ x ∧ x < 256 := by
  induction bs generalizing carry with
  | nil =>
    intro x hx
    cases hx
  | cons b bs ih =>
    have hb := b.isLt
    have hmul : b.toNat * factor ≤ 255 * (2 ^ 32 - 1) := Nat.mul_le_mul (by omega) (by omega)
    rw [lostParts, List.forall_mem_cons]
    refine ⟨?_, ih (by omega)⟩
    simp only [fullSum]
    omega

theorem bytesValue_take (bs : List Byte) {n : Nat} (hn : n ≤ bs.length) :
    bytesValue (bs.take n) = bytesValue bs % 256 ^ n := by
  have hlt := bytesValue_lt (bs.take n)
  have hlen : (bs.take n).length = n := by rw [List.length_take, Nat.min_eq_left hn]
  have hsplit : bytesValue bs = bytesValue (bs.take n) + 256 ^ n * bytesValue (bs.drop n) := by
    conv_lhs => rw [← List.take_append_drop n bs, bytesValue, valueOf_append, hlen]
    rfl
  rw [hlen] at hlt
  exact eq_emod_of_carry (bytesValue_nonneg _) hlt hsplit.symm

/-- With a factor below 2^32, nothing of the product is lost as long as none of the four partial
    products outgrows its carry. -/
theorem visibleLoss_eq_zero_iff {factor : Nat} (hfactor : factor < 2 ^ 32) (timadr : Quad) :
    visibleLoss factor timadr % 2 ^ 32 = 0 ↔
      ∀ i < 4, timadr.toNat % 256 ^ (i + 1) * factor < 256 ^ (i + 4) := by
  have hbound := lostParts_bound (Nat.mod_lt factor (show 0 < 2 ^ 32 by decide))
    (show 0 < 2 ^ 24 by decide) ((timeBytes timadr).take 4)
  obtain ⟨⟨hnonneg, hlt⟩, hzero⟩ := valueOf_eq_zero_iff (by decide) hbound
  have hlen : ((timeBytes timadr).take 4).length = 4 := rfl
  rw [length_lostParts, hlen] at hlt
  have hmod : visibleLoss factor timadr % 2 ^ 32 = 0 ↔
      valueOf 256 id (lostParts (factor % 2 ^ 32) 0 ((timeBytes timadr).take 4)) = 0 := by
    unfold visibleLoss
    omega
  rw [hmod, hzero, lostParts_eq_zero_iff, hlen, Nat.mod_eq_of_lt hfactor]
  have hpart : ∀ i < 4, bytesValue (((timeBytes timadr).take 4).take (i + 1)) =
      ((timadr.toNat % 256 ^ (i + 1) : Nat) : Int) := by
    intro i hi
    have hmin : min (i + 1) 4 = i + 1 := by omega
    rw [List.take_take, hmin, bytesValue_take _ (show i + 1 ≤ 8 by omega), timeBytes_value]
    push_cast
    rfl
  have hweight : ∀ i, (2 : Int) ^ 32 * 256 ^ i = ((256 ^ (i + 4) : Nat) : Int) := by
    intro i
    push_cast
    rw [pow_add]
    ring
  constructor
  · intro h i hi
    have hi' := h i hi
    rw [hpart i hi, hweight, Nat.cast_zero, zero_add] at hi'
    exact_mod_cast hi'
  · intro h i hi
    rw [hpart i hi, hweight, Nat.cast_zero, zero_add]
    exact_mod_cast h i hi

/-- **When delta times are multiplied exactly.**  A quadword that is not a delta time is left alone
    with `SS$_IVTIME`. For a factor and a delta time with a product that is a quadword, the result
    is the product if and only if what the carry loses and what the upper half of the factor would
    add cancel out; for factors below 2^32, if and only if nothing is lost. -/
theorem mult_delta_time_exact_iff (multiple : BitVec 64) (timadr : Quad) :
    (0 ≤ timadr.toInt → libMultDeltaTime multiple timadr = (ivTime, timadr)) ∧
    (timadr.toInt < 0 → multiple.toInt.natAbs * timadr.toInt.natAbs ≤ 2 ^ 63 →
      (MultipliesExactly multiple timadr ↔
        ((multiple.toInt.natAbs / 2 ^ 32 * timadr.toNat : Nat) +
          visibleLoss multiple.toInt.natAbs timadr) % 2 ^ 32 = 0) ∧
      (multiple.toInt.natAbs < 2 ^ 32 →
        (MultipliesExactly multiple timadr ↔
          ∀ i < 4, timadr.toNat % 256 ^ (i + 1) * multiple.toInt.natAbs < 256 ^ (i + 4)))) := by
  constructor
  · intro hnonneg
    have hmsb : timadr.msb = false := BitVec.msb_eq_toInt.trans (decide_eq_false (by omega))
    rw [libMultDeltaTime, hmsb, if_neg Bool.false_ne_true]
  · intro hdelta hbound
    have hexact := multiplies_exactly_iff multiple timadr hdelta hbound
    refine ⟨hexact, ?_⟩
    intro hfactor
    rw [hexact, Nat.div_eq_of_lt hfactor, Nat.zero_mul, Nat.cast_zero, zero_add,
      visibleLoss_eq_zero_iff hfactor]

/-- A minute times 90. -/
theorem minute_times_ninety : MultipliesExactly 90 (BitVec.ofInt 64 (-600000000)) :=
  (((mult_delta_time_exact_iff 90 (BitVec.ofInt 64 (-600000000))).2 (by decide) (by decide)).2
    (by decide)).mpr (by decide)

/-- 100 ns times 100000000. -/
theorem hundred_million_lost :
    ¬ ∀ (multiple : BitVec 64) (timadr : Quad), timadr.toInt < 0 →
      multiple.toInt.natAbs * timadr.toInt.natAbs ≤ 2 ^ 63 → MultipliesExactly multiple timadr := by
  intro h
  have hexact := h 100000000 (BitVec.ofInt 64 (-1)) (by decide) (by decide)
  exact absurd hexact.2 (by decide +kernel)

end FreeVMS.Rtl
