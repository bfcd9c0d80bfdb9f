import FreeVMS.Lib.Digits
import Mathlib.Data.BitVec
import Mathlib.Logic.Function.Basic

/-!
# Bytes of memory

What the run time library reads and writes: memory byte by byte, and numbers of any length laid
out in it with the lowest byte first.
-/

namespace FreeVMS.Rtl

open Lib.Digits

/-- `unsigned char` -/
abbrev Byte := BitVec 8

abbrev Memory := Nat → Byte

/-- `SS$_NORMAL` -/
def normal : Nat := 1

/-- The number that a byte stands for in a list of them. -/
def byteValue (b : Byte) : Int := b.toNat

theorem byteValue_nonneg (b : Byte) : 0 ≤ byteValue b := Int.natCast_nonneg _

theorem byteValue_lt (b : Byte) : byteValue b < 256 := by
  have hb := b.isLt
  simp only [byteValue]
  omega

/-- The number of a list of bytes. -/
def bytesValue (bs : List Byte) : Int := valueOf 256 byteValue bs

theorem bytesValue_nonneg (bs : List Byte) : 0 ≤ bytesValue bs :=
  valueOf_nonneg (by decide) byteValue_nonneg bs

theorem bytesValue_lt (bs : List Byte) : bytesValue bs < 256 ^ bs.length :=
  valueOf_lt (by decide) byteValue_lt bs

/-- The bytes at an address. -/
def bytesAt (m : Memory) (p n : Nat) : List Byte := (List.range n).map fun i => m (p + i)

@[simp] theorem length_bytesAt (m : Memory) (p n : Nat) : (bytesAt m p n).length = n := by
  simp [bytesAt]

@[simp] theorem bytesAt_zero (m : Memory) (p : Nat) : bytesAt m p 0 = [] := rfl

theorem bytesAt_succ (m : Memory) (p n : Nat) :
    bytesAt m p (n + 1) = m p :: bytesAt m (p + 1) n := by
  simp only [bytesAt, List.range_succ_eq_map, List.map_cons, List.map_map, Nat.add_zero]
  congr 1
  apply List.map_congr_left
  intro i _
  simp only [Function.comp_apply]
  congr 1
  omega

theorem bytesAt_snoc (m : Memory) (p n : Nat) :
    bytesAt m p (n + 1) = bytesAt m p n ++ [m (p + n)] := by
  simp [bytesAt, List.range_succ]

theorem bytesAt_congr {m m' : Memory} {p n : Nat} (h : ∀ i, i < n → m (p + i) = m' (p + i)) :
    bytesAt m p n = bytesAt m' p n := by
  apply List.map_congr_left
  intro i hi
  exact h i (List.mem_range.mp hi)

/-- The number at an address. -/
def numberAt (m : Memory) (p n : Nat) : Int := bytesValue (bytesAt m p n)

theorem numberAt_nonneg (m : Memory) (p n : Nat) : 0 ≤ numberAt m p n := bytesValue_nonneg _

theorem numberAt_lt (m : Memory) (p n : Nat) : numberAt m p n < 256 ^ n := by
  simpa [numberAt] using bytesValue_lt (bytesAt m p n)

theorem numberAt_snoc (m : Memory) (p n : Nat) :
    numberAt m p (n + 1) = numberAt m p n + 256 ^ n * byteValue (m (p + n)) := by
  rw [numberAt, bytesAt_snoc, bytesValue, valueOf_append, length_bytesAt]
  simp [numberAt, bytesValue]

/-- The two's complement number at an address. -/
def signedAt (m : Memory) (p n : Nat) : Int :=
  if 2 * numberAt m p n < 256 ^ n then numberAt m p n else numberAt m p n - 256 ^ n

end FreeVMS.Rtl
