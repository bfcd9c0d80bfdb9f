import FreeVMS.Rtl.Bytes
import Mathlib.Data.Nat.Digits.Defs

/-!
# Decimal digits as characters

The characters of digits, and the number that a text of them stands for, with the highest digit
first and of any length.
-/

namespace FreeVMS.Rtl

/-- A character constant. -/
def chr (c : Char) : Byte := BitVec.ofNat 8 c.toNat

/-- `'0' + digit` -/
def digitChr (digit : Nat) : Byte := BitVec.ofNat 8 (48 + digit)

def IsDigit (c : Byte) : Prop := 48 ≤ c.toNat ∧ c.toNat ≤ 57

instance (c : Byte) : Decidable (IsDigit c) := inferInstanceAs (Decidable (_ ∧ _))

theorem digitChr_toNat {d : Nat} (h : d < 10) : (digitChr d).toNat = 48 + d := by
  rw [digitChr, BitVec.toNat_ofNat]
  omega

theorem digitChr_isDigit {d : Nat} (h : d < 10) : IsDigit (digitChr d) := by
  rw [IsDigit, digitChr_toNat h]
  omega

/-- `c - '0'` -/
def digitOf (c : Byte) : Nat := c.toNat - 48

theorem digitOf_lt {c : Byte} (h : IsDigit c) : digitOf c < 10 := by
  unfold IsDigit at h
  unfold digitOf
  omega

@[simp] theorem digitOf_digitChr {d : Nat} (h : d < 10) : digitOf (digitChr d) = d := by
  rw [digitOf, digitChr_toNat h]
  omega

theorem digitChr_digitOf {c : Byte} (h : IsDigit c) : digitChr (digitOf c) = c := by
  apply BitVec.eq_of_toNat_eq
  rw [digitChr_toNat (digitOf_lt h)]
  unfold IsDigit at h
  unfold digitOf
  omega

/-- Digits only. -/
def Digits (s : List Byte) : Prop := ∀ c ∈ s, IsDigit c

instance (s : List Byte) : Decidable (Digits s) := inferInstanceAs (Decidable (∀ c ∈ s, IsDigit c))

theorem digits_nil : Digits [] := by
  intro c hc
  cases hc

theorem digits_append {s t : List Byte} : Digits (s ++ t) ↔ Digits s ∧ Digits t := List.forall_mem_append

theorem digits_cons {c : Byte} {s : List Byte} : Digits (c :: s) ↔ IsDigit c ∧ Digits s :=
  List.forall_mem_cons

/-- The number of a text of digits. -/
def number (s : List Byte) : Nat := s.foldl (fun n c => n * 10 + digitOf c) 0

@[simp] theorem number_nil : number [] = 0 := rfl

theorem number_concat (s : List Byte) (c : Byte) : number (s ++ [c]) = number s * 10 + digitOf c := by
  simp [number]

/-- The digits as Mathlib has them, the lowest first. -/
theorem number_eq_ofDigits (s : List Byte) : number s = Nat.ofDigits 10 (s.reverse.map digitOf) := by
  induction s using List.reverseRecOn with
  | nil => rfl
  | append_singleton s c ih =>
    rw [number_concat, ih, List.reverse_concat, List.map_cons, Nat.ofDigits_cons]
    ring

theorem number_append (s t : List Byte) : number (s ++ t) = number s * 10 ^ t.length + number t := by
  rw [number_eq_ofDigits, number_eq_ofDigits s, number_eq_ofDigits t, List.reverse_append,
    List.map_append, Nat.ofDigits_append, List.length_map, List.length_reverse]
  ring

theorem number_lt {s : List Byte} (h : Digits s) : number s < 10 ^ s.length := by
  have hlt : Nat.ofDigits 10 (s.reverse.map digitOf) < 10 ^ (s.reverse.map digitOf).length := by
    apply Nat.ofDigits_lt_base_pow_length (by decide)
    intro d hd
    obtain ⟨c, hc, rfl⟩ := List.mem_map.mp hd
    exact digitOf_lt (h c (List.mem_reverse.mp hc))
  rwa [List.length_map, List.length_reverse, ← number_eq_ofDigits] at hlt

end FreeVMS.Rtl
