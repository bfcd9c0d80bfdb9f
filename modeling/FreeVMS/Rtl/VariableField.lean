import FreeVMS.Lib.BitField

/-!
# Variable bit-fields

`libinsv.c`, `libextzv.c` and `libextv.c`: a field of a longword by position and size.  The routines
make their masks from `(1 << size) - 1` and the sign bit from `1 << (size - 1)`, on an `int`, which has
no bit 32 and no bit -1.
-/

namespace FreeVMS.Rtl

open Lib.BitField

/-- `x << n` of an `int`; the amount has to be less than the width. -/
def shiftLeft (x : BitVec 32) (n : Int) : Option (BitVec 32) :=
  if 0 ≤ n ∧ n < 32 then some (x <<< n.toNat) else none

/-- `x >> n` of an `int`. -/
def shiftRight (x : BitVec 32) (n : Int) : Option (BitVec 32) :=
  if 0 ≤ n ∧ n < 32 then some (x.sshiftRight n.toNat) else none

/-- `lib$insv`: the longword at `base` afterwards. -/
def libInsv (source : BitVec 32) (position size : Int) (base : BitVec 32) : Option (BitVec 32) := do
  let srcMask := (← shiftLeft 1 size) - 1
  let dstMask := 0xffffffff - (← shiftLeft srcMask position)
  let src := source &&& srcMask
  let base := base &&& dstMask
  return base ||| (← shiftLeft src position)

/-- `lib$extzv` -/
def libExtzv (position size : Int) (base : BitVec 32) : Option (BitVec 32) := do
  let srcMask := (← shiftLeft 1 size) - 1
  return (← shiftRight base position) &&& srcMask

/-- `lib$extv` -/
def libExtv (position size : Int) (base : BitVec 32) : Option (BitVec 32) := do
  let srcMask := (← shiftLeft 1 size) - 1
  let retval := (← shiftRight base position) &&& srcMask
  if retval &&& (← shiftLeft 1 (size - 1)) ≠ 0 then
    let signs := 0xffffffff &&& ~~~srcMask
    return retval ||| signs
  else return retval

/-! ### What is asked for -/

/-- The routines on the field of `s` bits at `p`. -/
structure FieldRight (base source : BitVec 32) (p s : Nat) : Prop where
  inserts : ∃ base', libInsv source p s base = some base' ∧
    (∀ i, ¬ (p ≤ i ∧ i < p + s) → base'.getLsbD i = base.getLsbD i) ∧
    libExtzv p s base' = some (BitVec.ofNat 32 (source.toNat % 2 ^ s)) ∧
    libExtv p s base' = some ((source.setWidth s).signExtend 32)
  again : ∃ field, libExtzv p s base = some field ∧ libInsv field p s base = some base
  signed : ∃ field, libExtv p s base = some field ∧ libInsv field p s base = some base

/-! ### The masks -/

section

variable {base source x : BitVec 32} {p s : Nat}

theorem shiftLeft_eq (hp : p < 32) : shiftLeft x p = some (x <<< p) := by
  rw [shiftLeft, if_pos ⟨Int.natCast_nonneg p, by omega⟩, Int.toNat_natCast]

theorem shiftRight_eq (hp : p < 32) : shiftRight x p = some (x.sshiftRight p) := by
  rw [shiftRight, if_pos ⟨Int.natCast_nonneg p, by omega⟩, Int.toNat_natCast]

theorem shiftLeft_none {n : Int} (h : n < 0 ∨ 32 ≤ n) : shiftLeft x n = none := by
  rw [shiftLeft, if_neg (by omega)]

theorem mask_eq (hs : s < 32) : (1 : BitVec 32) <<< s - 1 = (BitVec.allOnes s).setWidth 32 := by
  have hlt : 2 ^ s < 2 ^ 32 := Nat.pow_lt_pow_right (by decide) hs
  have hpos : 0 < 2 ^ s := Nat.two_pow_pos s
  apply BitVec.eq_of_toNat_eq
  have hone : (1 : BitVec 32).toNat = 1 := rfl
  rw [BitVec.toNat_setWidth, BitVec.toNat_allOnes, BitVec.toNat_sub, BitVec.toNat_shiftLeft,
    Nat.shiftLeft_eq, hone]
  omega

theorem and_mask : x &&& (BitVec.allOnes s).setWidth 32 = (x.setWidth s).setWidth 32 := by
  apply BitVec.eq_of_getLsbD_eq
  intro i hi
  rw [BitVec.getLsbD_and, BitVec.getLsbD_setWidth, BitVec.getLsbD_setWidth, BitVec.getLsbD_setWidth,
    BitVec.getLsbD_allOnes]
  simp only [hi, decide_true, Bool.true_and]
  exact Bool.and_comm _ _

/-- What is shifted in from the sign is masked out. -/
theorem sshiftRight_and_mask (h : p + s ≤ 32) :
    x.sshiftRight p &&& (BitVec.allOnes s).setWidth 32 = (x.extractLsb' p s).setWidth 32 := by
  apply BitVec.eq_of_getLsbD_eq
  intro i hi
  rw [BitVec.getLsbD_and, BitVec.getLsbD_sshiftRight, BitVec.getLsbD_setWidth,
    BitVec.getLsbD_setWidth, BitVec.getLsbD_allOnes, BitVec.getLsbD_extractLsb']
  by_cases hs : i < s
  · rw [if_pos (show p + i < 32 by omega)]
    simp [hi, hs, Nat.not_le.mpr hi]
  · simp [hs]

/-! ### What the routines do -/

theorem libInsv_eq (hs : s < 32) (hp : p < 32) :
    libInsv source p s base = some (put base p (source.setWidth s)) := by
  rw [libInsv, shiftLeft_eq hs]
  simp only [Option.bind_eq_bind, Option.bind_some, mask_eq hs, shiftLeft_eq hp, and_mask]
  have hones : (0xffffffff : BitVec 32) = BitVec.allOnes 32 := by decide
  rw [hones, BitVec.allOnes_sub_eq_not]
  rfl

theorem libExtzv_eq (hs : s < 32) (hp : p < 32) (h : p + s ≤ 32) :
    libExtzv p s base = some ((base.extractLsb' p s).setWidth 32) := by
  rw [libExtzv, shiftLeft_eq hs]
  simp only [Option.bind_eq_bind, Option.bind_some, mask_eq hs, shiftRight_eq hp]
  rw [sshiftRight_and_mask h]
  rfl

/-- The sign bit of a field. -/
theorem and_sign_ne_zero {v : BitVec s} (hpos : 1 ≤ s) (hs : s < 32) :
    v.setWidth 32 &&& (1 : BitVec 32) <<< (s - 1) ≠ 0 ↔ v.msb = true := by
  have hbit : ∀ i < 32, (v.setWidth 32 &&& (1 : BitVec 32) <<< (s - 1)).getLsbD i =
      (decide (i = s - 1) && v.msb) := by
    intro i hi
    have hone : (1 : BitVec 32) = BitVec.twoPow 32 0 := rfl
    rw [BitVec.getLsbD_and, BitVec.getLsbD_setWidth, BitVec.getLsbD_shiftLeft, hone,
      BitVec.getLsbD_twoPow, BitVec.msb_eq_getLsbD_last]
    by_cases heq : i = s - 1
    · simp [heq, show s - 1 < 32 by omega]
    · simp [heq, hi]
      omega
  constructor
  · intro hne
    by_contra hmsb
    refine hne (BitVec.eq_of_getLsbD_eq fun i hi => ?_)
    rw [hbit i hi, Bool.eq_false_iff.mpr hmsb, Bool.and_false]
    exact BitVec.getLsbD_zero.symm
  · intro hmsb heq
    have hlast := hbit (s - 1) (by omega)
    rw [heq, hmsb, decide_eq_true rfl] at hlast
    exact absurd (BitVec.getLsbD_zero.symm.trans hlast) (by decide)

theorem libExtv_eq (hpos : 1 ≤ s) (hs : s < 32) (hp : p < 32) (h : p + s ≤ 32) :
    libExtv p s base = some ((base.extractLsb' p s).signExtend 32) := by
  have hsign : shiftLeft 1 ((s : Int) - 1) = some ((1 : BitVec 32) <<< (s - 1)) := by
    rw [show (s : Int) - 1 = ((s - 1 : Nat) : Int) by omega, shiftLeft_eq (by omega)]
  rw [libExtv, shiftLeft_eq hs]
  simp only [Option.bind_eq_bind, Option.bind_some, mask_eq hs, shiftRight_eq hp, hsign]
  rw [sshiftRight_and_mask h]
  by_cases hmsb : (base.extractLsb' p s).msb = true
  · rw [if_pos ((and_sign_ne_zero hpos hs).mpr hmsb)]
    refine congrArg some (BitVec.eq_of_getLsbD_eq fun i hi => ?_)
    have hones : (0xffffffff : BitVec 32) = BitVec.allOnes 32 := by decide
    rw [BitVec.getLsbD_signExtend, hmsb, hones, BitVec.getLsbD_or, BitVec.getLsbD_and,
      BitVec.getLsbD_not, BitVec.getLsbD_allOnes, BitVec.getLsbD_setWidth, BitVec.getLsbD_setWidth,
      BitVec.getLsbD_allOnes]
    by_cases hin : i < s
    · simp [hi, hin]
    · simp [hi, hin]
  · rw [if_neg fun hne => hmsb ((and_sign_ne_zero hpos hs).mp hne)]
    rw [BitVec.signExtend_eq_setWidth_of_msb_false (by simpa using hmsb)]
    rfl

/-- There is no sign bit. -/
theorem libExtv_zero (position : Int) : libExtv position (0 : Nat) base = none := by
  rw [libExtv, shiftLeft_eq (by decide)]
  cases shiftRight base position with
  | none => rfl
  | some _ => rfl

theorem libExtv_full (position : Int) : libExtv position (32 : Nat) base = none := by
  rw [libExtv, shiftLeft_none (.inr (by decide))]
  rfl

theorem setWidth_signExtend {v : BitVec s} (hs : s ≤ 32) : (v.signExtend 32).setWidth s = v := by
  apply BitVec.eq_of_getLsbD_eq
  intro i hi
  rw [BitVec.getLsbD_setWidth, BitVec.getLsbD_signExtend, if_pos hi]
  simp [hi, show i < 32 by omega]

theorem fieldRight_middle (hpos : 1 ≤ s) (hs : s < 32) (h : p + s ≤ 32) :
    FieldRight base source p s := by
  have hp : p < 32 := by omega
  have hback : ∀ field : BitVec 32, field.setWidth s = base.extractLsb' p s →
      libInsv field p s base = some base := by
    intro field hfield
    rw [libInsv_eq hs hp, hfield, put_extract_same]
  refine ⟨⟨_, libInsv_eq hs hp, fun i hi => ?_, ?_, ?_⟩, ⟨_, libExtzv_eq hs hp h, hback _ ?_⟩,
    ⟨_, libExtv_eq hpos hs hp h, hback _ (setWidth_signExtend hs.le)⟩⟩
  · rw [getLsbD_put, if_neg (by omega)]
  · rw [libExtzv_eq hs hp h, extract_put_same h]
    refine congrArg some (BitVec.eq_of_toNat_eq ?_)
    rw [BitVec.toNat_setWidth, BitVec.toNat_setWidth, BitVec.toNat_ofNat]
  · rw [libExtv_eq hpos hs hp h, extract_put_same h]
  · exact BitVec.setWidth_setWidth_of_le _ hs.le |>.trans (BitVec.setWidth_eq _)

end

/-- **When the fields are right.**  Sizes from 1 to 31 are; for the size 32 there is no bit to shift the
    mask to, and for the size 0 none for the sign. -/
theorem field_right_iff {base source : BitVec 32} {p s : Nat} (h : p + s ≤ 32) :
    FieldRight base source p s ↔ 1 ≤ s ∧ s ≤ 31 := by
  constructor
  · intro hright
    obtain ⟨field, hfield, -⟩ := hright.signed
    by_contra hedge
    obtain rfl | rfl : s = 0 ∨ s = 32 := by omega
    · rw [libExtv_zero] at hfield
      cases hfield
    · rw [libExtv_full] at hfield
      cases hfield
  · rintro ⟨hpos, hlt⟩
    exact fieldRight_middle hpos (by omega) h

/-- The field of 8 bits at 4. -/
theorem byte_right_iff : 4 + 8 ≤ 32 ∧
    (FieldRight 0x12345678 0xfffffff5 4 8 ↔ 1 ≤ 8 ∧ 8 ≤ 31) :=
  ⟨by decide, field_right_iff (by decide)⟩

/-- A whole longword. -/
theorem longword_not_inserted : ¬ ∀ (base source : BitVec 32) (p s : Nat), p + s ≤ 32 →
    FieldRight base source p s := by
  intro h
  obtain ⟨base', hinsv, -⟩ := (h 0 0x12345678 0 32 (by decide)).inserts
  cases hinsv

end FreeVMS.Rtl
