import Mathlib.Data.BitVec

/-!
# Bit-fields

Groups of neighbouring bits of a word, read and written one by one.  What is written is read back,
also in part; bits outside of it stay as they were.  The place of a field in its structure follows
from the widths of the fields in front of it: a field that would reach over the border of a unit
begins with the next unit.
-/

namespace FreeVMS.Lib.BitField

/-- Where the fields begin, the first one not below `pos`. -/
def places (unit : Nat) : Nat → List Nat → List Nat
  | _, [] => []
  | pos, width :: widths =>
      let start := if pos % unit + width ≤ unit then pos else (pos / unit + 1) * unit
      start :: places unit (start + width) widths

/-- The word with the field at `start` exchanged for `v`. -/
def put {n w : Nat} (x : BitVec n) (start : Nat) (v : BitVec w) : BitVec n :=
  x &&& ~~~ ((BitVec.allOnes w).setWidth n <<< start) ||| v.setWidth n <<< start

section

variable {n w start a k : Nat} {x : BitVec n} {v : BitVec w}

theorem getLsbD_put (x : BitVec n) (v : BitVec w) (start i : Nat) :
    (put x start v).getLsbD i =
      if start ≤ i ∧ i < start + w ∧ i < n then v.getLsbD (i - start) else x.getLsbD i := by
  rw [put, BitVec.getLsbD_or, BitVec.getLsbD_and, BitVec.getLsbD_not, BitVec.getLsbD_shiftLeft,
    BitVec.getLsbD_shiftLeft, BitVec.getLsbD_setWidth, BitVec.getLsbD_setWidth,
    BitVec.getLsbD_allOnes]
  by_cases hn : i < n
  · by_cases hlow : start ≤ i
    · by_cases hhigh : i < start + w
      · rw [if_pos ⟨hlow, hhigh, hn⟩]
        simp [hn, show ¬ i < start by omega, show i - start < n by omega,
          show i - start < w by omega]
      · rw [if_neg (by omega), BitVec.getLsbD_of_ge v (i - start) (by omega)]
        simp [hn, show ¬ i - start < w by omega]
    · rw [if_neg (by omega)]
      simp [hn, show i < start by omega]
  · rw [if_neg (by omega), BitVec.getLsbD_of_ge x i (by omega)]
    simp [hn]

/-- Bits within what was written. -/
theorem extract_put_inside (hstart : start ≤ a) (hend : a + k ≤ start + w) (hn : start + w ≤ n) :
    (put x start v).extractLsb' a k = v.extractLsb' (a - start) k := by
  apply BitVec.eq_of_getLsbD_eq
  intro i hi
  rw [BitVec.getLsbD_extractLsb', BitVec.getLsbD_extractLsb', getLsbD_put, if_pos (by omega)]
  congr 2
  omega

/-- What was written. -/
theorem extract_put_same (hn : start + w ≤ n) : (put x start v).extractLsb' start w = v := by
  rw [extract_put_inside (Nat.le_refl _) (Nat.le_refl _) hn, Nat.sub_self, BitVec.extractLsb'_eq_self]

/-- Bits outside of it. -/
theorem extract_put_apart (h : a + k ≤ start ∨ start + w ≤ a) :
    (put x start v).extractLsb' a k = x.extractLsb' a k := by
  apply BitVec.eq_of_getLsbD_eq
  intro i hi
  rw [BitVec.getLsbD_extractLsb', BitVec.getLsbD_extractLsb', getLsbD_put, if_neg (by omega)]

/-- What is in the place already. -/
theorem put_extract_same : put x start (x.extractLsb' start w) = x := by
  apply BitVec.eq_of_getLsbD_eq
  intro i hi
  rw [getLsbD_put, BitVec.getLsbD_extractLsb']
  by_cases hin : start ≤ i ∧ i < start + w ∧ i < n
  · rw [if_pos hin, Nat.add_sub_cancel' hin.1]
    simp [show i - start < w by omega]
  · rw [if_neg hin]

/-- A field of a field. -/
theorem extract_extract (h : a + k ≤ w) :
    (x.extractLsb' start w).extractLsb' a k = x.extractLsb' (start + a) k := by
  apply BitVec.eq_of_getLsbD_eq
  intro i hi
  simp only [BitVec.getLsbD_extractLsb', hi, decide_true, Bool.true_and,
    show a + i < w by omega, Nat.add_assoc]

/-- A field is two smaller ones, the lower one first. -/
theorem toNat_extract_add (x : BitVec n) (a k l : Nat) :
    (x.extractLsb' a (k + l)).toNat =
      (x.extractLsb' a k).toNat + 2 ^ k * (x.extractLsb' (a + k) l).toNat := by
  simp only [BitVec.extractLsb'_toNat, Nat.shiftRight_eq_div_pow]
  rw [Nat.pow_add, Nat.mod_mul, Nat.div_div_eq_div_mul, ← Nat.pow_add]

end

/-- A member of `w` bits of a structure, by the bit it begins with. -/
structure Member (w : Nat) where
  start : Nat

namespace Member

variable {n w w' : Nat}

def get (m : Member w) (x : BitVec n) : BitVec w := x.extractLsb' m.start w

def set (m : Member w) (v : BitVec w) (x : BitVec n) : BitVec n := put x m.start v

theorem get_set_same {m : Member w} (hn : m.start + w ≤ n) (v : BitVec w) (x : BitVec n) :
    m.get (m.set v x) = v :=
  extract_put_same hn

theorem get_set_apart {m : Member w} {m' : Member w'}
    (h : m.start + w ≤ m'.start ∨ m'.start + w' ≤ m.start) (v : BitVec w') (x : BitVec n) :
    m.get (m'.set v x) = m.get x :=
  extract_put_apart h

theorem get_within (m : Member w) (m' : Member w') (h : m'.start + w' ≤ w) (x : BitVec n) :
    (⟨m.start + m'.start⟩ : Member w').get x = m'.get (m.get x) :=
  (extract_extract h).symm

end Member

end FreeVMS.Lib.BitField
