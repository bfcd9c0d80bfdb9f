import Mathlib.Data.BitVec
import Mathlib.Logic.Function.Basic
import Mathlib.Tactic.Ring

/-!
# Bytes at 64-bit addresses

Memory whose addresses are words and wrap around, numbers in it with the lowest byte first, and the
loops that copy bytes upwards and clear them.
-/

namespace FreeVMS.Lib.ByteMemory

abbrev Addr := BitVec 64

abbrev Mem := Addr → BitVec 8

variable {m m' : Mem} {a b dst src : Addr} {i j k n v : Nat}

/-- The address `k` bytes behind `a`. -/
def off (a : Addr) (k : Nat) : Addr := a + BitVec.ofNat 64 k

@[simp] theorem off_zero (a : Addr) : off a 0 = a := BitVec.add_zero a

theorem off_off (a : Addr) (i j : Nat) : off (off a i) j = off a (i + j) := by
  rw [off, off, off, BitVec.add_assoc, ← BitVec.ofNat_add]

theorem off_succ (a : Addr) (k : Nat) : off (a + 1) k = off a (k + 1) := by
  rw [Nat.add_comm k 1]
  exact off_off a 1 k

theorem off_inj (hi : i < 2 ^ 64) (hj : j < 2 ^ 64) : off a i = off a j ↔ i = j := by
  rw [off, off, BitVec.add_right_inj, ← BitVec.toNat_inj, BitVec.toNat_ofNat, BitVec.toNat_ofNat,
    Nat.mod_eq_of_lt hi, Nat.mod_eq_of_lt hj]

/-- `a` is one of the `n` bytes from `p` on. -/
def Within (p : Addr) (n : Nat) (a : Addr) : Prop := ∃ k, k < n ∧ a = off p k

theorem within_off (h : k < n) : Within a n (off a k) := ⟨k, h, rfl⟩

theorem Within.of_off {l : Nat} (h : Within (off a k) l b) (hkl : k + l ≤ n) : Within a n b := by
  obtain ⟨i, hi, rfl⟩ := h
  rw [off_off]
  exact within_off (by omega)

theorem within_zero : ¬ Within a 0 b := by
  rintro ⟨k, hk, -⟩
  omega

theorem within_succ : Within a (n + 1) b ↔ b = a ∨ Within (a + 1) n b := by
  constructor
  · rintro ⟨k, hk, rfl⟩
    cases k with
    | zero => exact Or.inl (off_zero a)
    | succ k => exact Or.inr ⟨k, by omega, (off_succ a k).symm⟩
  · rintro (rfl | ⟨k, hk, rfl⟩)
    · exact ⟨0, by omega, (off_zero b).symm⟩
    · exact ⟨k + 1, by omega, off_succ a k⟩

/-! ### Numbers -/

/-- The number in `n` bytes. -/
def field (m : Mem) (a : Addr) : Nat → Nat
  | 0 => 0
  | n + 1 => (m a).toNat + 256 * field m (a + 1) n

/-- The low `n` bytes of `v` are stored. -/
def storeField (m : Mem) (a : Addr) (v : Nat) : Nat → Mem
  | 0 => m
  | n + 1 => storeField (Function.update m a (BitVec.ofNat 8 v)) (a + 1) (v / 256) n

theorem field_congr (h : ∀ k, k < n → m (off a k) = m' (off a k)) : field m a n = field m' a n := by
  induction n generalizing a with
  | zero => rfl
  | succ n ih =>
    have hfirst := h 0 (by omega)
    rw [off_zero] at hfirst
    rw [field, field, hfirst, ih]
    intro k hk
    rw [off_succ]
    exact h (k + 1) (by omega)

/-- A number depends on the bytes around it. -/
theorem field_within {l : Nat} (h : ∀ b, Within a n b → m b = m' b) (hkl : k + l ≤ n) :
    field m (off a k) l = field m' (off a k) l := by
  refine field_congr fun i hi => ?_
  rw [off_off]
  exact h _ (within_off (by omega))

theorem field_lt (m : Mem) (a : Addr) (n : Nat) : field m a n < 256 ^ n := by
  induction n generalizing a with
  | zero => exact Nat.one_pos
  | succ n ih =>
    have hbyte := (m a).isLt
    have hrest := ih (a + 1)
    rw [field, Nat.pow_succ]
    omega

theorem storeField_of_not_within (h : ¬ Within a n b) : storeField m a v n b = m b := by
  induction n generalizing m a v with
  | zero => rfl
  | succ n ih =>
    rw [within_succ, not_or] at h
    rw [storeField, ih h.2, Function.update_of_ne h.1]

/-- A byte that is stored depends on no byte but itself. -/
theorem storeField_congr (h : m b = m' b) : storeField m a v n b = storeField m' a v n b := by
  induction n generalizing m m' a v with
  | zero => exact h
  | succ n ih =>
    refine ih ?_
    by_cases hb : b = a
    · rw [hb, Function.update_self, Function.update_self]
    · rw [Function.update_of_ne hb, Function.update_of_ne hb, h]

theorem storeField_off (hn : n ≤ 2 ^ 64) (hk : k < n) :
    storeField m a v n (off a k) = BitVec.ofNat 8 (v / 256 ^ k) := by
  induction n generalizing m a v k with
  | zero => omega
  | succ n ih =>
    cases k with
    | zero =>
      have hout : ¬ Within (a + 1) n a := by
        rintro ⟨k, hk', heq⟩
        rw [off_succ] at heq
        have hzero := (@off_inj a 0 (k + 1) (by omega) (by omega)).mp (by rw [off_zero, ← heq])
        omega
      rw [off_zero, storeField, storeField_of_not_within hout, Function.update_self]
      simp
    | succ k =>
      rw [storeField, ← off_succ, ih (by omega) (by omega), Nat.div_div_eq_div_mul, Nat.pow_succ']

theorem field_storeField (hn : n ≤ 2 ^ 64) : field (storeField m a v n) a n = v % 256 ^ n := by
  have hdigits : ∀ (n : Nat) (a : Addr) (v : Nat) (m : Mem),
      (∀ k, k < n → m (off a k) = BitVec.ofNat 8 (v / 256 ^ k)) → field m a n = v % 256 ^ n := by
    intro n
    induction n with
    | zero =>
      intro a v m _
      rw [field, Nat.pow_zero, Nat.mod_one]
    | succ n ih =>
      intro a v m h
      have hfirst := h 0 (by omega)
      rw [off_zero, Nat.pow_zero, Nat.div_one] at hfirst
      have hrest : ∀ k, k < n → m (off (a + 1) k) = BitVec.ofNat 8 (v / 256 / 256 ^ k) := by
        intro k hk
        rw [off_succ, h (k + 1) (by omega), Nat.div_div_eq_div_mul, Nat.pow_succ']
      have hmod : v % 256 ^ (n + 1) = v % 256 + 256 * (v / 256 % 256 ^ n) := by
        rw [Nat.pow_succ', Nat.mod_mul]
      rw [field, hfirst, ih (a + 1) (v / 256) m hrest, BitVec.toNat_ofNat, hmod]
  exact hdigits n a v _ fun k hk => storeField_off hn hk

/-! ### Copying and clearing -/

/-- `n` bytes are copied, the first one first. -/
def copyUp : Nat → Addr → Addr → Mem → Mem
  | 0, _, _, m => m
  | n + 1, dst, src, m => copyUp n (dst + 1) (src + 1) (Function.update m dst (m src))

def clearUp : Nat → Addr → Mem → Mem
  | 0, _, m => m
  | n + 1, a, m => clearUp n (a + 1) (Function.update m a 0)

theorem copyUp_of_not_within (h : ¬ Within dst n b) : copyUp n dst src m b = m b := by
  induction n generalizing m dst src with
  | zero => rfl
  | succ n ih =>
    rw [within_succ, not_or] at h
    rw [copyUp, ih h.2, Function.update_of_ne h.1]

/-- The bytes that are copied do not change on the way. -/
theorem copyUp_off (hn : n ≤ 2 ^ 64) (hapart : ∀ i, i < n → ¬ Within dst n (off src i)) (hk : k < n) :
    copyUp n dst src m (off dst k) = m (off src k) := by
  induction n generalizing m dst src k with
  | zero => omega
  | succ n ih =>
    have hsrc : ∀ i, i < n + 1 → off src i ≠ dst := by
      intro i hi heq
      exact hapart i hi (within_succ.mpr (Or.inl heq))
    cases k with
    | zero =>
      have hout : ¬ Within (dst + 1) n dst := by
        rintro ⟨k, hk', heq⟩
        rw [off_succ] at heq
        have hzero := (@off_inj dst 0 (k + 1) (by omega) (by omega)).mp (by rw [off_zero, ← heq])
        omega
      rw [off_zero, off_zero, copyUp, copyUp_of_not_within hout, Function.update_self]
    | succ k =>
      have hrest : ∀ i, i < n → ¬ Within (dst + 1) n (off (src + 1) i) := by
        intro i hi hin
        rw [off_succ] at hin
        exact hapart (i + 1) (by omega) (within_succ.mpr (Or.inr hin))
      rw [copyUp, ← off_succ, ih (by omega) hrest (by omega), off_succ,
        Function.update_of_ne (hsrc (k + 1) hk)]

theorem clearUp_of_not_within (h : ¬ Within a n b) : clearUp n a m b = m b := by
  induction n generalizing m a with
  | zero => rfl
  | succ n ih =>
    rw [within_succ, not_or] at h
    rw [clearUp, ih h.2, Function.update_of_ne h.1]

theorem clearUp_of_within (h : Within a n b) : clearUp n a m b = 0 := by
  induction n generalizing m a with
  | zero => exact absurd h within_zero
  | succ n ih =>
    by_cases hrest : Within (a + 1) n b
    · rw [clearUp, ih hrest]
    · obtain rfl := (within_succ.mp h).resolve_right hrest
      rw [clearUp, clearUp_of_not_within hrest, Function.update_self]

end FreeVMS.Lib.ByteMemory
