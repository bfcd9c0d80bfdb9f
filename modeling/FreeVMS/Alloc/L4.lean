import Mathlib.Data.Nat.Basic
import Mathlib.Tactic.Ring
import Mathlib.Tactic.Linarith

/-!
# Flexpages

`L4_Fpage_t` and its accessors from `l4/types.h`, and the address arithmetic of
`sys_alloc.c` that works on them.  Words are naturals below `2 ^ 64`; additions and
subtractions that can leave this range wrap around, and shift counts are taken modulo 64,
as the processor does.

`bits` is the result of `vms$min_pagebits`, 12 on the machine the system runs on.
-/

namespace FreeVMS.Alloc

/-- One above the largest word. -/
def wordSize : Nat := 2 ^ 64

/-- `INVALID_ADDR`. -/
def invalidAddr : Nat := wordSize - 1

def wordAdd (x y : Nat) : Nat := (x + y) % wordSize

def wordSub (x y : Nat) : Nat := (x + (wordSize - y)) % wordSize

def wordShl (x n : Nat) : Nat := x * 2 ^ (n % 64) % wordSize

def wordShr (x n : Nat) : Nat := x / 2 ^ (n % 64)

/-- `L4_Fpage_t`: rights in bits 0 to 2, the logarithm of the size in bits 4 to 9, the base
    address from bit 10 on. -/
structure Fpage where
  raw : Nat
deriving DecidableEq, Repr

/-- `L4_Nilpage`. -/
def nilpage : Fpage := ⟨0⟩

/-- `L4_IsNilFpage`. -/
def l4IsNilFpage (f : Fpage) : Bool := decide (f.raw = 0)

/-- `L4_SizeLog2`. -/
def l4SizeLog2 (f : Fpage) : Nat := f.raw / 2 ^ 4 % 2 ^ 6

/-- `L4_FpageLog2`: the size field and the rights are written over the address. -/
def l4FpageLog2 (baseAddress fpageSize : Nat) : Fpage :=
  ⟨baseAddress / 2 ^ 10 * 2 ^ 10 + fpageSize % 2 ^ 6 * 2 ^ 4 + baseAddress / 2 ^ 3 % 2 * 2 ^ 3⟩

/-- `L4_Fpage`: the size is rounded up to a power of two. -/
def l4Fpage (baseAddress fpageSize : Nat) : Fpage :=
  let msb := Nat.log2 fpageSize
  l4FpageLog2 baseAddress (if 2 ^ msb < fpageSize then msb + 1 else msb)

/-- `L4_Address`. -/
def l4Address (f : Fpage) : Nat := f.raw / 2 ^ l4SizeLog2 f * 2 ^ l4SizeLog2 f

/-- `L4_Size`. -/
def l4Size (f : Fpage) : Nat := if l4SizeLog2 f = 0 then 0 else 2 ^ l4SizeLog2 f

/-- `buddy`. -/
def buddy (f : Fpage) : Fpage := l4Fpage (l4Address f ^^^ l4Size f) (l4Size f)

/-- `sys$fp_order`. -/
def fpOrder (bits : Nat) (f : Fpage) : Int := (l4SizeLog2 f : Int) - bits

/-- `sys$fp_end`. -/
def fpEnd (f : Fpage) : Nat := wordAdd (l4Address f) (wordSub (l4Size f) 1)

/-- The loop of `sys$biggest_fpage`, `fuel` iterations before `bits` reaches 64. -/
def biggestBits (addr base end_ : Nat) : Nat → Nat → Nat
  | 0, bits => bits
  | fuel + 1, bits =>
      let nextAddr := wordShl (wordShr addr (bits + 1)) (bits + 1)
      let nextSize := wordShl 1 (bits + 1)
      if nextAddr < base ∨ wordSub (wordAdd nextAddr nextSize) 1 > end_ then bits
      else biggestBits addr base end_ fuel (bits + 1)

/-- `sys$biggest_fpage`. -/
def biggestFpage (bits addr base end_ : Nat) : Fpage :=
  if end_ < base ∨ wordAdd (wordSub end_ base) 1 < 2 ^ bits then nilpage
  else
    let b := biggestBits addr base end_ (64 - bits) bits
    l4FpageLog2 (wordShl (wordShr addr b) b) b

/-! ### Proper flexpages -/

/-- The page sizes the kernel can report: a page holds at least the control bits of a
    flexpage, and `vms$min_pagesize` computes it as an `int`. -/
structure PageBits (bits : Nat) : Prop where
  ge : 10 ≤ bits
  le : bits ≤ 30

/-- Page `f` of order `i` begins at `a`: a power of two, aligned to its size, that ends
    below the end of the address space and is not half of it. -/
structure Block (bits i : Nat) (f : Fpage) (a : Nat) : Prop where
  eq : f = l4FpageLog2 a (i + bits)
  small : i + bits < 63
  aligned : a % 2 ^ (i + bits) = 0
  fits : a + 2 ^ (i + bits) < wordSize

theorem two_pow_dvd_of_le {a b : Nat} (h : a ≤ b) : 2 ^ a ∣ 2 ^ b := Nat.pow_dvd_pow 2 h

theorem aligned_of_le {s t x : Nat} (h : t ≤ s) (hx : x % 2 ^ s = 0) : x % 2 ^ t = 0 :=
  Nat.mod_eq_zero_of_dvd ((two_pow_dvd_of_le h).trans (Nat.dvd_of_mod_eq_zero hx))

section

variable {bits i a : Nat} {f : Fpage}

theorem l4FpageLog2_raw {s : Nat} (h10 : 10 ≤ s) (hs : s < 64) (ha : a % 2 ^ s = 0) :
    (l4FpageLog2 a s).raw = a + s * 2 ^ 4 := by
  have hd : 2 ^ 10 ∣ a := Nat.dvd_trans (two_pow_dvd_of_le h10) (Nat.dvd_of_mod_eq_zero ha)
  obtain ⟨q, rfl⟩ := hd
  have h3 : 2 ^ 10 * q / 2 ^ 3 % 2 = 0 := by
    rw [show 2 ^ 10 * q = 2 ^ 3 * (2 * (2 ^ 6 * q)) by ring, Nat.mul_div_cancel_left _ (by decide)]
    exact Nat.mul_mod_right _ _
  simp only [l4FpageLog2, h3, Nat.mul_div_cancel_left q (show 0 < 2 ^ 10 by decide)]
  rw [Nat.mod_eq_of_lt (show s < 2 ^ 6 by omega)]
  omega

theorem l4SizeLog2_fpageLog2 {s : Nat} (h10 : 10 ≤ s) (hs : s < 64) (ha : a % 2 ^ s = 0) :
    l4SizeLog2 (l4FpageLog2 a s) = s := by
  rw [l4SizeLog2, l4FpageLog2_raw h10 hs ha]
  have hd : 2 ^ 10 ∣ a := Nat.dvd_trans (two_pow_dvd_of_le h10) (Nat.dvd_of_mod_eq_zero ha)
  obtain ⟨q, rfl⟩ := hd
  omega

theorem l4Address_fpageLog2 {s : Nat} (h10 : 10 ≤ s) (hs : s < 64) (ha : a % 2 ^ s = 0) :
    l4Address (l4FpageLog2 a s) = a := by
  rw [l4Address, l4SizeLog2_fpageLog2 h10 hs ha, l4FpageLog2_raw h10 hs ha]
  have hlt : s * 2 ^ 4 < 2 ^ s := by
    calc s * 2 ^ 4 < 64 * 2 ^ 4 := by omega
      _ = 2 ^ 10 := by decide
      _ ≤ 2 ^ s := Nat.pow_le_pow_right (by decide) h10
  obtain ⟨q, rfl⟩ := Nat.dvd_of_mod_eq_zero ha
  rw [Nat.mul_add_div (by positivity), Nat.div_eq_of_lt hlt, Nat.add_zero, Nat.mul_comm]

variable (hb : PageBits bits)

include hb

theorem Block.sizeLog2 (h : Block bits i f a) : l4SizeLog2 f = i + bits := by
  rw [h.eq]
  exact l4SizeLog2_fpageLog2 (by have := hb.ge; omega) (by have := h.small; omega) h.aligned

theorem Block.address (h : Block bits i f a) : l4Address f = a := by
  rw [h.eq]
  exact l4Address_fpageLog2 (by have := hb.ge; omega) (by have := h.small; omega) h.aligned

theorem Block.size (h : Block bits i f a) : l4Size f = 2 ^ (i + bits) := by
  rw [l4Size, h.sizeLog2 hb, if_neg (by have := hb.ge; omega)]

theorem Block.order (h : Block bits i f a) : fpOrder bits f = i := by
  rw [fpOrder, h.sizeLog2 hb]
  omega

theorem Block.not_nil (h : Block bits i f a) : l4IsNilFpage f = false := by
  refine decide_eq_false fun hraw => ?_
  have := h.sizeLog2 hb
  rw [l4SizeLog2, hraw] at this
  have := hb.ge
  omega

theorem Block.fpEnd_eq (h : Block bits i f a) : fpEnd f + 1 = a + 2 ^ (i + bits) := by
  have hpos : 0 < 2 ^ (i + bits) := by positivity
  have hfits := h.fits
  have hw : 2 ^ (i + bits) < wordSize := by omega
  rw [fpEnd, h.address hb, h.size hb]
  have hsub : wordSub (2 ^ (i + bits)) 1 = 2 ^ (i + bits) - 1 := by
    rw [wordSub, show 2 ^ (i + bits) + (wordSize - 1) = 2 ^ (i + bits) - 1 + wordSize by omega,
      Nat.add_mod_right, Nat.mod_eq_of_lt (by omega)]
  rw [hsub, wordAdd, Nat.mod_eq_of_lt (by omega)]
  omega

/-- The lower half of a block. -/
theorem Block.lower (h : Block bits (i + 1) f a) :
    Block bits i (l4FpageLog2 (l4Address f) (l4SizeLog2 f - 1)) a := by
  have hs : i + 1 + bits - 1 = i + bits := by omega
  have hsmall := h.small
  refine ⟨?_, by omega, ?_, ?_⟩
  · rw [h.address hb, h.sizeLog2 hb, hs]
  · exact aligned_of_le (by omega) h.aligned
  · have := h.fits
    have hp : 2 ^ (i + 1 + bits) = 2 * 2 ^ (i + bits) := by ring
    omega

/-- The buddy of the lower half of a block is its upper half. -/
theorem Block.upper (h : Block bits (i + 1) f a) :
    Block bits i (buddy (l4FpageLog2 (l4Address f) (l4SizeLog2 f - 1))) (a + 2 ^ (i + bits)) := by
  have hlow := h.lower hb
  have hp : 2 ^ (i + 1 + bits) = 2 * 2 ^ (i + bits) := by ring
  have hlog : Nat.log2 (2 ^ (i + bits)) = i + bits := Nat.log2_two_pow
  obtain ⟨q, hq⟩ := Nat.dvd_of_mod_eq_zero h.aligned
  -- bit `i + bits` of the address is clear
  have hxor : a ^^^ 2 ^ (i + bits) = a + 2 ^ (i + bits) := by
    rw [hq]
    apply Nat.eq_of_testBit_eq
    intro j
    have hlt : 2 ^ (i + bits) < 2 ^ (i + 1 + bits) :=
      Nat.pow_lt_pow_right (by decide) (by omega)
    rw [Nat.testBit_xor, Nat.testBit_two_pow_mul_add _ hlt, Nat.testBit_two_pow_mul]
    by_cases hj : j < i + 1 + bits
    · simp [hj, Nat.not_le.mpr hj]
    · have hne : i + bits ≠ j := by omega
      simp [hj, hne, Nat.le_of_not_lt hj]
  refine ⟨?_, hlow.small, ?_, ?_⟩
  · rw [buddy, hlow.address hb, hlow.size hb, hxor, l4Fpage, hlog]
    simp
  · rw [Nat.add_mod_right]
    exact hlow.aligned
  · have := h.fits
    omega

end

/-! ### Cutting a range into flexpages -/

/-- A non-empty range `[base, end_]` of whole pages that `sys$biggest_fpage` can cut: it ends
    below the last word, and does not begin at 0 and cover half of the address space. -/
structure Span (bits base end_ : Nat) : Prop where
  base_aligned : base % 2 ^ bits = 0
  end_aligned : (end_ + 1) % 2 ^ bits = 0
  lt : base < end_
  fits : end_ + 1 < wordSize
  half : base = 0 → end_ + 1 < 2 ^ 63

/-- Two aligned addresses are at least a page apart. -/
theorem aligned_gap {m x y : Nat} (hx : x % m = 0) (hy : y % m = 0) (hlt : x < y) : x + m ≤ y := by
  obtain ⟨p, rfl⟩ := Nat.dvd_of_mod_eq_zero hx
  obtain ⟨q, rfl⟩ := Nat.dvd_of_mod_eq_zero hy
  have hpq : p + 1 ≤ q := Nat.lt_of_mul_lt_mul_left hlt
  calc m * p + m = m * (p + 1) := rfl
    _ ≤ m * q := Nat.mul_le_mul_left _ hpq

theorem Span.page_le {bits base end_ : Nat} (h : Span bits base end_) :
    base + 2 ^ bits ≤ end_ + 1 :=
  aligned_gap h.base_aligned h.end_aligned (by have := h.lt; omega)

/-- The last address is no page. -/
theorem PageBits.ne_invalidAddr {bits mem : Nat} (h : PageBits bits) (hal : mem % 2 ^ bits = 0) :
    mem ≠ invalidAddr := by
  intro heq
  obtain ⟨q, hq⟩ : 2 ^ bits ∣ wordSize := two_pow_dvd_of_le (Nat.le_trans h.le (by decide))
  have hpage : 2 ^ 1 ≤ 2 ^ bits := Nat.pow_le_pow_right (by decide) (Nat.le_trans (by decide) h.ge)
  have hlast := aligned_gap hal (show wordSize % 2 ^ bits = 0 by rw [hq]; exact Nat.mul_mod_right _ _)
    (by rw [heq]; decide)
  rw [heq, invalidAddr] at hlast
  have : 0 < wordSize := by decide
  omega

theorem PageBits.two_le {bits : Nat} (h : PageBits bits) : 2 ≤ 2 ^ bits := by
  have := h.ge
  calc 2 = 2 ^ 1 := rfl
    _ ≤ 2 ^ bits := Nat.pow_le_pow_right (by decide) (by omega)

theorem wordShl_shr {x n : Nat} (hn : n < 64) (hx : x < wordSize) :
    wordShl (wordShr x n) n = x / 2 ^ n * 2 ^ n := by
  rw [wordShl, wordShr, Nat.mod_eq_of_lt hn]
  exact Nat.mod_eq_of_lt (Nat.lt_of_le_of_lt (Nat.div_mul_le_self _ _) hx)

theorem wordSub_of_le {x y : Nat} (h : y ≤ x) (hy : y ≤ wordSize) (hx : x < wordSize + y) :
    wordSub x y = x - y := by
  rw [wordSub, show x + (wordSize - y) = x - y + wordSize by omega, Nat.add_mod_right,
    Nat.mod_eq_of_lt (by omega)]

theorem wordSub_one {x : Nat} (h0 : 0 < x) (hx : x ≤ wordSize) : wordSub x 1 = x - 1 :=
  wordSub_of_le h0 (by decide) (by omega)

theorem wordAdd_sub_one {x y : Nat} (hy : 0 < y) (h : x + y ≤ wordSize) :
    wordSub (wordAdd x y) 1 = x + y - 1 := by
  have hw : 0 < wordSize := by decide
  rcases Nat.lt_or_ge (x + y) wordSize with hlt | hge
  · rw [wordAdd, Nat.mod_eq_of_lt hlt, wordSub_one (by omega) h]
  · have heq : x + y = wordSize := by omega
    rw [wordAdd, heq, Nat.mod_self, wordSub, Nat.zero_add, Nat.mod_eq_of_lt (by omega)]

/-- One round of the loop: it goes on when `base` is aligned to the next size and that still fits. -/
theorem biggestBits_step {base end_ b : Nat} (fuel : Nat) (hbase : base < wordSize) (hb : b + 1 < 64) :
    biggestBits base base end_ (fuel + 1) b = b ∨
      (base % 2 ^ (b + 1) = 0 ∧ base + 2 ^ (b + 1) ≤ end_ + 1 ∧
        biggestBits base base end_ (fuel + 1) b = biggestBits base base end_ fuel (b + 1)) := by
  have hone : wordShl 1 (b + 1) = 2 ^ (b + 1) := by
    rw [wordShl, Nat.mod_eq_of_lt hb, Nat.one_mul]
    exact Nat.mod_eq_of_lt (Nat.pow_lt_pow_right (by decide) hb)
  rw [biggestBits]
  simp only [wordShl_shr hb hbase, hone]
  by_cases hstop : base / 2 ^ (b + 1) * 2 ^ (b + 1) < base ∨
      wordSub (wordAdd (base / 2 ^ (b + 1) * 2 ^ (b + 1)) (2 ^ (b + 1))) 1 > end_
  · rw [if_pos hstop]
    exact .inl rfl
  · rw [if_neg hstop]
    obtain ⟨h1, h2⟩ := not_or.mp hstop
    -- rounding down does not move an aligned base
    have hround : base / 2 ^ (b + 1) * 2 ^ (b + 1) = base :=
      Nat.le_antisymm (Nat.div_mul_le_self _ _) (Nat.le_of_not_lt h1)
    have hal : base % 2 ^ (b + 1) = 0 := by
      rw [← hround]
      exact Nat.mul_mod_left _ _
    have hpos : 0 < 2 ^ (b + 1) := by positivity
    have hw : wordSize % 2 ^ (b + 1) = 0 :=
      Nat.mod_eq_zero_of_dvd (two_pow_dvd_of_le (show b + 1 ≤ 64 by omega))
    rw [hround, wordAdd_sub_one hpos (aligned_gap hal hw hbase)] at h2
    exact .inr ⟨hal, by omega, rfl⟩

/-- The loop stops at a size to which `base` is aligned and that still fits, or runs to its end. -/
theorem biggestBits_fits {base end_ : Nat} (hbase : base < wordSize) :
    ∀ (fuel b : Nat), fuel + b = 64 → base % 2 ^ b = 0 → base + 2 ^ b ≤ end_ + 1 →
      biggestBits base base end_ fuel b = 64 ∨ (b ≤ biggestBits base base end_ fuel b ∧
        biggestBits base base end_ fuel b < 64 ∧ base % 2 ^ biggestBits base base end_ fuel b = 0 ∧
        base + 2 ^ biggestBits base base end_ fuel b ≤ end_ + 1) := by
  intro fuel
  induction fuel with
  | zero =>
    intro b hf _ _
    left
    rw [biggestBits]
    omega
  | succ fuel ih =>
    intro b hf hal hle
    by_cases hlast : b + 1 < 64
    · rcases biggestBits_step fuel hbase hlast with hstop | ⟨hal', hle', hgo⟩
      · rw [hstop]
        exact .inr ⟨Nat.le_refl _, by omega, hal, hle⟩
      · rw [hgo]
        rcases ih (b + 1) (by omega) hal' hle' with h | ⟨h, h'⟩
        · exact .inl h
        · exact .inr ⟨Nat.le_of_succ_le h, h'⟩
    · obtain rfl : fuel = 0 := by omega
      rw [biggestBits]
      split
      · exact .inr ⟨Nat.le_refl _, by omega, hal, hle⟩
      · left
        rw [biggestBits]
        omega

/-- In a range that `sys$biggest_fpage` can cut it stops below 63. -/
theorem biggestBits_spec {base end_ : Nat} (hfits : end_ + 1 < wordSize)
    (hhalf : base = 0 → end_ + 1 < 2 ^ 63) :
    ∀ (fuel b : Nat), fuel + b = 64 → b < 63 → base % 2 ^ b = 0 → base + 2 ^ b ≤ end_ + 1 →
      ∃ b', b ≤ b' ∧ b' < 63 ∧ biggestBits base base end_ fuel b = b' ∧ base % 2 ^ b' = 0 ∧
        base + 2 ^ b' ≤ end_ + 1 := by
  intro fuel
  induction fuel with
  | zero => intro b hf hb; omega
  | succ fuel ih =>
    intro b hf hb hal hle
    rcases biggestBits_step fuel (show base < wordSize by omega) (show b + 1 < 64 by omega) with
      hstop | ⟨hal', hle', hgo⟩
    · rw [hstop]
      exact ⟨b, Nat.le_refl _, hb, rfl, hal, hle⟩
    · rw [hgo]
      have hb' : b + 1 < 63 := by
        by_contra hge
        obtain rfl : b = 62 := by omega
        obtain ⟨q, hq⟩ := Nat.dvd_of_mod_eq_zero hal'
        have hw : wordSize = 2 ^ (62 + 1) * 2 := by decide
        have hz : q = 0 := by omega
        have := hhalf (by rw [hq, hz, Nat.mul_zero])
        omega
      obtain ⟨b', h3, h4, h5⟩ := ih (b + 1) (by omega) hb' hal' hle'
      exact ⟨b', by omega, h4, h5⟩

/-- The size that `sys$biggest_fpage` comes to. -/
theorem biggestFpage_eq {bits base end_ : Nat} (hb : PageBits bits) (h : Span bits base end_) :
    ∃ b, bits ≤ b ∧ b < 63 ∧ biggestBits base base end_ (64 - bits) bits = b ∧ base % 2 ^ b = 0 ∧
      base + 2 ^ b ≤ end_ + 1 ∧ biggestFpage bits base base end_ = l4FpageLog2 base b := by
  have hpage := h.page_le
  have hlt := h.lt
  have hfits := h.fits
  have hle := hb.le
  obtain ⟨b, hbb, h63, hrun, hal, htop⟩ :=
    biggestBits_spec h.fits h.half (64 - bits) bits (by omega) (by omega) h.base_aligned hpage
  have hcount : wordAdd (wordSub end_ base) 1 = end_ - base + 1 := by
    rw [wordSub, show end_ + (wordSize - base) = end_ - base + wordSize by omega,
      Nat.add_mod_right, Nat.mod_eq_of_lt (by omega), wordAdd, Nat.mod_eq_of_lt (by omega)]
  have hgo : ¬ (end_ < base ∨ wordAdd (wordSub end_ base) 1 < 2 ^ bits) := by
    rw [hcount]
    omega
  have hround : base / 2 ^ b * 2 ^ b = base :=
    Nat.div_mul_cancel (Nat.dvd_of_mod_eq_zero hal)
  refine ⟨b, hbb, h63, hrun, hal, htop, ?_⟩
  rw [biggestFpage, if_neg hgo, hrun]
  simp only [wordShl_shr (show b < 64 by omega) (show base < wordSize by omega), hround]

/-- **`sys$biggest_fpage`.**  From the beginning of a range it cuts a block that lies in the
    range. -/
theorem biggestFpage_spec {bits base end_ : Nat} (hb : PageBits bits) (h : Span bits base end_) :
    ∃ i, Block bits i (biggestFpage bits base base end_) base ∧
      base + 2 ^ (i + bits) ≤ end_ + 1 := by
  obtain ⟨b, hbb, h63, -, hal, htop, heq⟩ := biggestFpage_eq hb h
  have hfits := h.fits
  have hidx : b - bits + bits = b := by omega
  refine ⟨b - bits, ⟨?_, by omega, by rw [hidx]; exact hal, ?_⟩, by rw [hidx]; exact htop⟩
  · rw [heq, hidx]
  · rw [hidx]
    omega

end FreeVMS.Alloc
